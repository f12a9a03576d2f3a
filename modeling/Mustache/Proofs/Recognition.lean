import Mathlib.Data.List.Infix
import Mustache.Proofs.Rows

/-!
# Recognising Standalone Lines

Which lines are trimmed, told without the scan that finds them. A line is
standalone if it consists of silent tags, each directly followed by the next, and
of blanks around them. A tag is silent if a silent sigil comes first in it, blanks
aside, and it ends with the first closing delimiter after its opening one.

The scan looks for the closing delimiter of the first tag after its opening
delimiter, but for those of the others from the start of their tag on. That makes a
difference only where a closing delimiter begins inside of an opening one. If none
can, exactly the standalone lines are trimmed, to their tags. If one can, there is a
standalone line of two tags that is left as it is. A line with a single tag is
trimmed under any delimiters.

## Main definitions

* `BeginsSilent`: A silent sigil comes first in a text, blanks aside.
* `Delimiters.IsSilentTag`: A text is a silent tag.
* `Line.IsStandalone`: A line is blanks, silent tags, and blanks.
* `Delimiters.IsApart`: No closing delimiter begins inside of an opening one.

## Theorems

* `startsTag_iff`: Where a silent tag starts.
* `tagRun?_opening`: The scan may pass over an opening delimiter.
* `tagRun?_of_tags`: The tags of a standalone line are found.
* `tags_of_tagRun?`: What is found are the tags of a standalone line.
* `exists_of_not_isApart`: A standalone line that is left as it is.
* `Line.ofText_isStandalone_iff`: When exactly the standalone lines are trimmed.
-/

namespace Mustache

open Text

/-- A silent sigil comes first in the text, blanks aside. -/
def BeginsSilent (text : List Char) : Prop :=
  ∃ blanks sigil rest, text = blanks ++ sigil :: rest ∧ blanks.all isBlank = true ∧
    sigil ∈ silentSigils

/-- The text is what stands after the opening delimiter of a silent tag: it ends
    with a closing delimiter, and no other one ends within it. -/
structure Delimiters.IsSilentContent (d : Delimiters) (content : List Char) : Prop where
  begins : BeginsSilent content
  ends : d.closing <:+ content
  first : ∀ front back, content = front ++ d.closing ++ back → back = []

/-- The text is an opening delimiter, blanks, a silent sigil, and more text up to
    the first closing delimiter after the opening one. -/
def Delimiters.IsSilentTag (d : Delimiters) (tag : List Char) : Prop :=
  ∃ content, tag = d.opening ++ content ∧ d.IsSilentContent content

/-- The line is blanks, then at least one silent tag, each directly followed by
    the next, and then blanks. -/
def Line.IsStandalone (d : Delimiters) (line : Line) : Prop :=
  line.lead.all isBlank = true ∧ line.trail.all isBlank = true ∧
    ∃ tags, tags ≠ [] ∧ (∀ tag ∈ tags, d.IsSilentTag tag) ∧ line.text = tags.flatten

/-- No closing delimiter begins inside of the opening delimiter of a silent tag,
    neither within the delimiter alone nor together with the sigil. -/
def Delimiters.IsApart (d : Delimiters) : Prop :=
  ∀ back ∈ d.opening.tails, back ≠ [] →
    ¬ d.closing <+: back ∧ ∀ sigil ∈ silentSigils, ¬ back ++ [sigil] <+: d.closing

-- Only the sigils are looked through, not all characters.
instance (back closing : List Char) :
    Decidable (∀ sigil ∈ silentSigils, ¬ back ++ [sigil] <+: closing) :=
  List.decidableBAll _ _

instance (d : Delimiters) : Decidable d.IsApart :=
  inferInstanceAs (Decidable (∀ back ∈ d.opening.tails, back ≠ [] →
    ¬ d.closing <+: back ∧ ∀ sigil ∈ silentSigils, ¬ back ++ [sigil] <+: d.closing))

section

variable {word front back text rest : List Char} {ch : Char}

/-- A word without the character ends before it. -/
theorem prefix_of_not_mem (hmem : ch ∉ word) (h : word <+: front ++ ch :: back) :
    word <+: front := by
  have hfront : front ++ [ch] <+: front ++ ch :: back := ⟨back, by
    rw [List.append_assoc, List.singleton_append]⟩
  rcases List.prefix_or_prefix_of_prefix h hfront with hshort | hlong
  · rcases List.prefix_concat_iff.mp hshort with heq | hprefix
    · rw [heq] at hmem
      exact absurd (List.mem_append_right _ (List.mem_singleton_self ch)) hmem
    · exact hprefix
  · exact absurd (hlong.subset (List.mem_append_right _ (List.mem_singleton_self ch))) hmem

theorem trimStart_blanks {blanks : List Char} (hblanks : blanks.all isBlank = true)
    (hch : isBlank ch = false) : trimStart (blanks ++ ch :: rest) = ch :: rest := by
  rw [trimStart, List.dropWhile_append_of_pos (List.all_eq_true.mp hblanks),
    List.dropWhile_cons_of_neg (by rw [hch]; exact Bool.false_ne_true)]

theorem takeWhile_blanks {blanks : List Char} (hblanks : blanks.all isBlank = true)
    (hch : isBlank ch = false) : (blanks ++ ch :: rest).takeWhile isBlank = blanks := by
  rw [List.takeWhile_append_of_pos (List.all_eq_true.mp hblanks),
    List.takeWhile_cons_of_neg (by rw [hch]; exact Bool.false_ne_true), List.append_nil]

theorem BeginsSilent.append (h : BeginsSilent text) (rest : List Char) :
    BeginsSilent (text ++ rest) := by
  rcases h with ⟨blanks, sigil, more, rfl, hblanks, hsilent⟩
  exact ⟨blanks, sigil, more ++ rest, by rw [List.append_assoc, List.cons_append], hblanks, hsilent⟩

/-- The sigil is found before the end of the first part, if that is not blank. -/
theorem BeginsSilent.of_append (h : BeginsSilent (front ++ rest))
    (hfront : front.all isBlank = false) : BeginsSilent front := by
  rcases h with ⟨blanks, sigil, more, hsplit, hblanks, hsilent⟩
  -- The first part ends within the blanks or behind them.
  rcases List.append_eq_append_iff.mp hsplit with ⟨tail, rfl, _⟩ | ⟨tail, rfl, htail⟩
  · rw [List.all_append, hfront, Bool.false_and] at hblanks
    exact absurd hblanks Bool.false_ne_true
  · cases tail with
    | nil =>
        rw [List.append_nil, hblanks] at hfront
        exact absurd hfront.symm Bool.false_ne_true
    | cons first tail =>
        rw [List.cons_append, List.cons.injEq] at htail
        exact ⟨blanks, sigil, tail, by rw [htail.1], hblanks, hsilent⟩

end

section

variable {d : Delimiters} {text content front rest run lead trail : List Char}
    {tags : List (List Char)}

/-- A silent tag starts with an opening delimiter, blanks, and a silent sigil. -/
theorem startsTag_iff :
    startsTag d text = true ↔ ∃ content, text = d.opening ++ content ∧ BeginsSilent content := by
  rw [startsTag, Bool.and_eq_true, List.isPrefixOf_iff_prefix]
  constructor
  · rintro ⟨⟨content, rfl⟩, hsigil⟩
    rw [List.drop_left] at hsigil
    refine ⟨content, rfl, content.takeWhile isBlank, ?_⟩
    -- Without its blanks, the content starts with the sigil.
    cases htrim : trimStart content with
    | nil =>
        rw [htrim] at hsigil
        exact absurd hsigil Bool.false_ne_true
    | cons sigil more =>
        rw [htrim] at hsigil
        exact ⟨sigil, more, by rw [← htrim, takeWhile_append_trimStart],
          List.all_eq_true.mpr fun _ hmem => List.mem_takeWhile_imp hmem,
          List.contains_iff_mem.mp hsigil⟩
  · rintro ⟨content, rfl, blanks, sigil, more, rfl, hblanks, hsilent⟩
    refine ⟨List.prefix_append _ _, ?_⟩
    rw [List.drop_left, trimStart_blanks hblanks (isBlank_of_mem_silentSigils hsilent)]
    exact List.contains_iff_mem.mpr hsilent

/-- No tag starts among blanks. -/
theorem startsTag_of_isBlank (h : text.all isBlank = true) : startsTag d text = false := by
  rw [Bool.eq_false_iff, ne_eq, startsTag_iff]
  rintro ⟨content, rfl, blanks, sigil, more, rfl, _, hsilent⟩
  have hmem : sigil ∈ d.opening ++ (blanks ++ sigil :: more) :=
    List.mem_append_right _ (List.mem_append_right _ List.mem_cons_self)
  have hblank := List.all_eq_true.mp h sigil hmem
  rw [isBlank_of_mem_silentSigils hsilent] at hblank
  exact Bool.false_ne_true hblank

/-- The blanks at the start of a line end where an opening delimiter begins. -/
theorem Delimiters.trimStart_opening (d : Delimiters) (text : List Char)
    (hlead : lead.all isBlank = true) :
    trimStart (lead ++ (d.opening ++ text)) = d.opening ++ text ∧
      (lead ++ (d.opening ++ text)).takeWhile isBlank = lead := by
  cases hopening : d.opening with
  | nil => exact absurd hopening d.opening_ne_nil
  | cons ch opening =>
      have hch : isBlank ch = false :=
        (d.opening_isDelimiter.2 ch (by rw [hopening]; exact List.mem_cons_self)).1
      exact ⟨trimStart_blanks hlead hch, takeWhile_blanks hlead hch⟩

/-- A text with a closing delimiter in it is not blank. -/
theorem Delimiters.isBlank_append_closing (d : Delimiters) (front rest : List Char) :
    (front ++ d.closing ++ rest).all isBlank = false := by
  rcases List.exists_mem_of_ne_nil d.closing d.closing_ne_nil with ⟨ch, hmem⟩
  rw [List.all_eq_false]
  refine ⟨ch, List.mem_append_left _ (List.mem_append_right _ hmem), ?_⟩
  rw [(d.closing_isDelimiter.2 ch hmem).1]
  exact Bool.false_ne_true

/-- What stands up to the first closing delimiter is the content of a silent tag, if
    a silent sigil comes first. -/
theorem isSilentContent_of_cut? (hbegins : BeginsSilent text)
    (h : cut? d.closing text = some (front, rest)) : d.IsSilentContent (front ++ d.closing) where
  begins := by
    rw [eq_of_cut? h] at hbegins
    refine hbegins.of_append ?_
    rw [← List.append_nil (front ++ d.closing)]
    exact d.isBlank_append_closing front []
  ends := List.suffix_append _ _
  first := by
    intro before after hsplit
    have hlength := congrArg List.length hsplit
    have hcut := h
    rw [eq_of_cut? h, hsplit, List.append_assoc _ after] at hcut
    -- The closing delimiter that is found is the first one, so none ends before it.
    have hle := length_le_of_cut? hcut
    rw [List.length_append, List.length_append, List.length_append] at hlength
    exact List.eq_nil_of_length_eq_zero (by omega)

/-- The content of a silent tag is found, whatever follows it. -/
theorem Delimiters.IsSilentContent.cut? (h : d.IsSilentContent content) (rest : List Char) :
    ∃ front, content = front ++ d.closing ∧
      Text.cut? d.closing (content ++ rest) = some (front, rest) := by
  rcases h.ends with ⟨front, rfl⟩
  refine ⟨front, rfl, cut?_eq_of_leftmost d.closing_ne_nil fun more ch hmore => ?_⟩
  cases hcut : Text.cut? d.closing more with
  | none => rfl
  | some found =>
      have hsplit := hmore
      rw [eq_of_cut? hcut, List.append_assoc _ found.2] at hsplit
      -- No closing delimiter ends before the last character.
      exact absurd (h.first _ _ hsplit)
        (List.append_ne_nil_of_right_ne_nil _ (List.cons_ne_nil _ _))

/-- Under delimiters that are apart, no closing delimiter is found inside of an
    opening one. -/
theorem Delimiters.IsApart.cut?_opening (h : d.IsApart) (hbegins : BeginsSilent content) :
    cut? d.closing (d.opening ++ content) =
      (cut? d.closing content).map fun found => (d.opening ++ found.1, found.2) := by
  refine cut?_append_of_not_begins fun before back hopening hback hclosing => ?_
  have hapart := h back ((List.mem_tails _ _).mpr ⟨before, hopening.symm⟩) hback
  rcases List.prefix_or_prefix_of_prefix hclosing (List.prefix_append back content) with
    hshort | ⟨more, hmore⟩
  · exact hapart.1 hshort
  · rw [← hmore, List.prefix_append_right_inj] at hclosing
    rcases hbegins with ⟨blanks, sigil, text, rfl, hblanks, hsilent⟩
    cases more with
    | nil =>
        rw [List.append_nil] at hmore
        exact hapart.1 (hmore ▸ List.prefix_refl _)
    | cons ch more =>
        -- The closing delimiter goes on with the sigil, since it has no blank.
        have hch : isBlank ch = false :=
          (d.closing_isDelimiter.2 ch
            (by rw [← hmore]; exact List.mem_append_right _ List.mem_cons_self)).1
        cases blanks with
        | nil =>
            rw [List.nil_append, List.cons_prefix_cons] at hclosing
            refine hapart.2 sigil hsilent ⟨more, ?_⟩
            rw [← hmore, hclosing.1, List.append_assoc, List.singleton_append]
        | cons blank blanks =>
            rw [List.cons_append, List.cons_prefix_cons] at hclosing
            rw [List.all_cons, Bool.and_eq_true, ← hclosing.1, hch] at hblanks
            exact Bool.false_ne_true hblanks.1

/-- So the scan may as well start after an opening delimiter. -/
theorem tagRun?_opening (h : d.IsApart) (hbegins : BeginsSilent content) :
    tagRun? d (d.opening ++ content) =
      (tagRun? d content).map fun found => (d.opening ++ found.1, found.2) := by
  have hopening := h.cut?_opening hbegins
  cases hcut : cut? d.closing content with
  | none =>
      rw [hcut, Option.map_none] at hopening
      have hnone : ∀ text, cut? d.closing text = none → tagRun? d text = none := by
        intro text htext
        cases hrun : tagRun? d text with
        | none => rfl
        | some run =>
            rcases exists_cut?_of_tagRun? hrun with ⟨before, rest, hfound⟩
            rw [htext] at hfound
            simp only [reduceCtorEq] at hfound
      rw [hnone _ hcut, hnone _ hopening, Option.map_none]
  | some found =>
      rw [hcut, Option.map_some] at hopening
      rw [tagRun?_of_cut hcut, tagRun?_of_cut hopening]
      by_cases hstart : startsTag d found.2 = true
      · rw [if_pos hstart, if_pos hstart, Option.map_map]
        refine congrArg (Option.map · _) (funext fun more => ?_)
        simp only [Function.comp_apply, List.append_assoc]
      · rw [if_neg hstart, if_neg hstart, Option.map_some, List.append_assoc]

/-- The tags of a standalone line are found. One tag is found in any case. -/
theorem tagRun?_of_tags (hcontent : d.IsSilentContent content)
    (htags : ∀ tag ∈ tags, d.IsSilentTag tag) (hapart : tags = [] ∨ d.IsApart)
    (htrail : trail.all isBlank = true) :
    tagRun? d (content ++ (tags.flatten ++ trail)) = some (content ++ tags.flatten, trail) := by
  -- By induction on the tags that follow. The scan may start behind the opening
  -- delimiter of each.
  induction tags generalizing content with
  | nil =>
      rcases hcontent.cut? trail with ⟨front, rfl, hcut⟩
      rw [List.flatten_nil, List.nil_append, List.append_nil, tagRun?_of_cut hcut,
        startsTag_of_isBlank htrail, if_neg Bool.false_ne_true]
  | cons tag tags ih =>
      have hd : d.IsApart := hapart.resolve_left (List.cons_ne_nil _ _)
      rcases htags tag List.mem_cons_self with ⟨next, rfl, hnext⟩
      rcases hcontent.cut? (d.opening ++ (next ++ (tags.flatten ++ trail))) with ⟨front, rfl, hcut⟩
      have hbegins : BeginsSilent (next ++ (tags.flatten ++ trail)) := hnext.begins.append _
      have hrest := ih hnext (fun tag hmem => htags tag (List.mem_cons_of_mem _ hmem)) (Or.inr hd)
      rw [List.flatten_cons, List.append_assoc d.opening, List.append_assoc d.opening,
        List.append_assoc next, tagRun?_of_cut hcut, if_pos (startsTag_iff.mpr ⟨_, rfl, hbegins⟩),
        tagRun?_opening hd hbegins, hrest, Option.map_some, Option.map_some]

/-- What is found are the tags of a standalone line, under delimiters that are
    apart. -/
theorem tags_of_tagRun? (hapart : d.IsApart) (hbegins : BeginsSilent text)
    (h : tagRun? d text = some (run, trail)) :
    ∃ content, ∃ tags : List (List Char), run = content ++ tags.flatten ∧
      d.IsSilentContent content ∧ ∀ tag ∈ tags, d.IsSilentTag tag := by
  -- By induction on the length, since the scan goes on within the next tag.
  induction hlength : text.length using Nat.strong_induction_on generalizing text run with
  | _ length ih =>
      rcases exists_cut?_of_tagRun? h with ⟨front, rest, hcut⟩
      have hcontent := isSilentContent_of_cut? hbegins hcut
      rw [tagRun?_of_cut hcut] at h
      -- Either another tag starts behind the closing delimiter or the row ends there.
      by_cases hstart : startsTag d rest = true
      · rcases startsTag_iff.mp hstart with ⟨next, rfl, hnext⟩
        have hlt : next.length < length := by
          have hle := length_lt_of_cut? d.closing_ne_nil hcut
          rw [List.length_append] at hle
          omega
        rw [if_pos hstart, tagRun?_opening hapart hnext, Option.map_map] at h
        rcases Option.map_eq_some_iff.mp h with ⟨⟨run', trail'⟩, hrun, heq⟩
        rw [Function.comp_apply, Prod.mk.injEq] at heq
        rcases heq with ⟨rfl, rfl⟩
        rcases ih next.length hlt hnext hrun rfl with ⟨content, tags, rfl, hnextContent, htags⟩
        refine ⟨front ++ d.closing, (d.opening ++ content) :: tags, ?_, hcontent, ?_⟩
        · simp only [List.flatten_cons, List.append_assoc]
        · intro tag hmem
          rcases List.mem_cons.mp hmem with rfl | hmem
          · exact ⟨content, rfl, hnextContent⟩
          · exact htags tag hmem
      · rw [if_neg hstart, Option.some.injEq, Prod.mk.injEq] at h
        refine ⟨front ++ d.closing, [], ?_, hcontent, nofun⟩
        rw [List.flatten_nil, List.append_nil, h.1]

/-- A standalone line is trimmed to its tags. -/
theorem Line.ofText_of_tags {tag : List Char} (hlead : lead.all isBlank = true)
    (htrail : trail.all isBlank = true) (htag : d.IsSilentTag tag)
    (htags : ∀ tag ∈ tags, d.IsSilentTag tag) (hapart : tags = [] ∨ d.IsApart) :
    Line.ofText d (lead ++ (tag ++ tags.flatten) ++ trail) =
      ⟨lead, tag ++ tags.flatten, trail⟩ := by
  rcases htag with ⟨content, rfl, hcontent⟩
  have hbegins : BeginsSilent (content ++ (tags.flatten ++ trail)) := hcontent.begins.append _
  have honly : onlyTags? d (d.opening ++ (content ++ (tags.flatten ++ trail))) =
      some (d.opening ++ (content ++ tags.flatten), trail) := by
    rw [onlyTags?, if_pos (startsTag_iff.mpr ⟨_, rfl, hbegins⟩), List.drop_left,
      tagRun?_of_tags hcontent htags hapart htrail]
    dsimp only
    rw [if_pos htrail]
  have hsplit : lead ++ (d.opening ++ content ++ tags.flatten) ++ trail =
      lead ++ (d.opening ++ (content ++ (tags.flatten ++ trail))) := by
    simp only [List.append_assoc]
  rcases d.trimStart_opening (content ++ (tags.flatten ++ trail)) hlead with ⟨htrim, htake⟩
  rw [hsplit, Line.ofText, htrim, htake, honly, List.append_assoc]

/-- A standalone line is trimmed to its tags, under delimiters that are apart. -/
theorem Line.IsStandalone.ofText {line : Line} (h : line.IsStandalone d) (hapart : d.IsApart) :
    Line.ofText d line.toText = line := by
  rcases line with ⟨lead, row, trail⟩
  rcases h with ⟨hlead, htrail, tags, hne, htags, hrow⟩
  cases tags with
  | nil => exact absurd rfl hne
  | cons tag tags =>
      dsimp only at hrow hlead htrail
      rw [toText, hrow, List.flatten_cons]
      exact ofText_of_tags hlead htrail (htags tag List.mem_cons_self)
        (fun tag hmem => htags tag (List.mem_cons_of_mem _ hmem)) (Or.inr hapart)

/-- What is trimmed is a standalone line, under delimiters that are apart. -/
theorem Line.isStandalone_of_onlyTags? (hapart : d.IsApart)
    (h : onlyTags? d (trimStart text) = some (run, trail)) :
    (Line.mk (text.takeWhile isBlank) run trail).IsStandalone d := by
  have hstart : startsTag d (trimStart text) = true := by
    rw [onlyTags?] at h
    by_contra hnot
    rw [if_neg hnot] at h
    simp only [reduceCtorEq] at h
  rcases startsTag_iff.mp hstart with ⟨content, hcontent, hbegins⟩
  rcases onlyTags?_eq_some h with ⟨tail, htail, hrun, htrail⟩
  rw [hcontent, List.drop_left] at htail
  rcases tags_of_tagRun? hapart hbegins htail with ⟨first, tags, rfl, hfirst, htags⟩
  refine ⟨List.all_eq_true.mpr fun _ hmem => List.mem_takeWhile_imp hmem, htrail,
    (d.opening ++ first) :: tags, List.cons_ne_nil _ _, ?_, ?_⟩
  · intro tag hmem
    rcases List.mem_cons.mp hmem with rfl | hmem
    · exact ⟨first, rfl, hfirst⟩
    · exact htags tag hmem
  · rw [hrun, List.flatten_cons, List.append_assoc]

end

section

variable {d : Delimiters} {front rest text : List Char}

/-- A text shorter than the closing delimiter does not hold it, and neither does
    the blank after it. -/
theorem cut?_append_blank (text : List Char) (h : front.length < d.closing.length) :
    cut? d.closing (front ++ ' ' :: text) =
      (cut? d.closing text).map fun found => (front ++ ' ' :: found.1, found.2) := by
  have hnot : ∀ before back, front ++ [' '] = before ++ back → back ≠ [] →
      ¬ d.closing <+: back ++ text := by
    intro before back hsplit hback hclosing
    rcases List.eq_nil_or_concat back with rfl | ⟨init, last, rfl⟩
    · exact hback rfl
    · rw [List.concat_eq_append, ← List.append_assoc] at hsplit
      rcases List.append_inj' hsplit rfl with ⟨rfl, hlast⟩
      rw [← List.singleton_inj.mp hlast, List.concat_eq_append, List.append_assoc,
        List.singleton_append] at hclosing
      have hle := (prefix_of_not_mem (d.not_mem_closing rfl) hclosing).length_le
      rw [List.length_append] at h
      omega
  have hcut := cut?_append_of_not_begins hnot
  simp only [List.append_assoc, List.singleton_append] at hcut
  exact hcut

/-- A closing delimiter that begins inside of an opening one ends the scan, since
    another tag cannot start before the blank. -/
theorem tagRun?_of_overlap {before more : List Char} (text : List Char)
    (hlength : front.length < d.closing.length)
    (h : d.opening ++ front = before ++ d.closing ++ more) :
    ∃ run rest,
      tagRun? d (d.opening ++ front ++ ' ' :: text) = some (run, rest ++ ' ' :: text) := by
  cases hcut : cut? d.closing (d.opening ++ front) with
  | none =>
      rw [h] at hcut
      exact absurd hcut (Window.cut?_ne_none before d.closing more)
  | some found =>
      have hlong := congrArg List.length (eq_of_cut? hcut)
      refine ⟨found.1 ++ d.closing, found.2, ?_⟩
      -- What is left after it is too short for an opening delimiter.
      rw [tagRun?_of_cut (Window.cut?_append hcut), if_neg]
      rw [startsTag_iff]
      rintro ⟨content, hcontent, _⟩
      have hopening : d.opening <+: found.2 :=
        prefix_of_not_mem (d.not_mem_opening rfl) ⟨content, hcontent.symm⟩
      have hle := hopening.length_le
      rw [List.length_append, List.length_append, List.length_append] at hlong
      omega

/-- Under delimiters that are not apart, a closing delimiter ends within what a tag
    may begin with. -/
theorem Delimiters.exists_overlap (h : ¬ d.IsApart) :
    ∃ front before more, front.length < d.closing.length ∧
      d.opening ++ front = before ++ d.closing ++ more ∧
      ∀ text, BeginsSilent (front ++ ' ' :: '#' :: text) := by
  rw [Delimiters.IsApart] at h
  push Not at h
  rcases h with ⟨back, hmem, hback, hoverlap⟩
  rcases (List.mem_tails _ _).mp hmem with ⟨before, hopening⟩
  -- A closing delimiter lies within an opening one, or reaches up to the sigil.
  by_cases hclosing : d.closing <+: back
  · rcases hclosing with ⟨more, rfl⟩
    refine ⟨[], before, more, List.length_pos_iff.mpr d.closing_ne_nil, ?_, fun text => ?_⟩
    · rw [List.append_nil, ← hopening, List.append_assoc]
    · exact ⟨[' '], '#', text, rfl, by decide, by decide⟩
  · rcases hoverlap hclosing with ⟨sigil, hsilent, more, hmore⟩
    rw [List.append_assoc, List.singleton_append] at hmore
    refine ⟨sigil :: more, before, [], ?_, ?_, fun text => ?_⟩
    · have hpos := List.length_pos_iff.mpr hback
      rw [← hmore, List.length_append]
      omega
    · rw [← hopening, ← hmore, List.append_nil, List.append_assoc]
    · exact ⟨[], sigil, more ++ ' ' :: '#' :: text, rfl, rfl, hsilent⟩

/-- A line is left as it is if more than blanks follow where the scan ends in
    its second tag. -/
theorem onlyTags?_of_second {content next run trail : List Char}
    (hcontent : d.IsSilentContent content)
    (hnext : BeginsSilent next) (hrun : tagRun? d (d.opening ++ next) = some (run, trail))
    (htrail : trail.all isBlank = false) :
    onlyTags? d (d.opening ++ (content ++ (d.opening ++ next))) = none := by
  rcases hcontent.cut? (d.opening ++ next) with ⟨before, hends, hcut⟩
  rw [onlyTags?, if_pos (startsTag_iff.mpr ⟨_, rfl, hcontent.begins.append _⟩), List.drop_left,
    tagRun?_of_cut hcut, if_pos (startsTag_iff.mpr ⟨next, rfl, hnext⟩), hrun, Option.map_some]
  dsimp only
  rw [if_neg (by rw [htrail]; exact Bool.false_ne_true)]

/-- So there is a standalone line of two tags that is left as it is: the scan takes
    part of the second opening delimiter for the end of the second tag. -/
theorem exists_of_not_isApart (h : ¬ d.IsApart) :
    ∃ tag, d.IsSilentTag tag ∧
      Line.ofText d (tag ++ tag ++ [' ']) = ⟨[], tag ++ tag ++ [' '], []⟩ := by
  rcases d.exists_overlap h with ⟨front, before, more, hlength, hoverlap, hbegins⟩
  cases hcut : cut? d.closing ('#' :: d.closing) with
  | none => exact absurd hcut (by simpa using Window.cut?_ne_none ['#'] d.closing [])
  | some found =>
      have hblank := cut?_append_blank ('#' :: d.closing) hlength
      rw [hcut, Option.map_some] at hblank
      have hcontent := isSilentContent_of_cut? (hbegins d.closing) hblank
      rcases tagRun?_of_overlap (found.1 ++ d.closing ++ [' ']) hlength hoverlap with
        ⟨run, rest, hrun⟩
      -- What follows the end of the scan holds the closing delimiter of the second tag.
      have hrest := d.isBlank_append_closing (rest ++ ' ' :: found.1) [' ']
      simp only [List.append_assoc, List.cons_append] at hcontent hrun hrest
      refine ⟨d.opening ++ (front ++ ' ' :: (found.1 ++ d.closing)), ⟨_, rfl, hcontent⟩, ?_⟩
      have honly := onlyTags?_of_second hcontent (hcontent.begins.append [' '])
        (by simpa only [List.append_assoc, List.cons_append] using hrun) hrest
      have hnil : ([] : List Char).all isBlank = true := rfl
      have htrim := (d.trimStart_opening (front ++ ' ' :: (found.1 ++ d.closing) ++
        (d.opening ++ (front ++ ' ' :: (found.1 ++ d.closing) ++ [' ']))) hnil).1
      rw [List.nil_append] at htrim
      rw [List.append_assoc, List.append_assoc d.opening, List.append_assoc d.opening,
        Line.ofText, htrim, honly]

end

/-- Under delimiters that are apart, exactly the standalone lines are trimmed, to their
    tags, and every other line is left as it is. Delimiters that are not apart fail at
    that, but a line with a single tag is trimmed under any delimiters. -/
theorem Line.ofText_isStandalone_iff (d : Delimiters) :
    (∀ lead tag trail, lead.all isBlank = true → trail.all isBlank = true → d.IsSilentTag tag →
      Line.ofText d (lead ++ tag ++ trail) = ⟨lead, tag, trail⟩) ∧
    (d.IsApart ↔ ∀ text,
      (∀ line : Line, line.IsStandalone d → line.toText = text → Line.ofText d text = line) ∧
      ((∀ line : Line, line.IsStandalone d → line.toText ≠ text) →
        Line.ofText d text = ⟨[], text, []⟩)) := by
  refine ⟨?_, ?_, ?_⟩
  · intro lead tag trail hlead htrail htag
    have hline := Line.ofText_of_tags hlead htrail htag (List.forall_mem_nil _) (Or.inl rfl)
    rwa [List.flatten_nil, List.append_nil] at hline
  · intro hapart text
    refine ⟨?_, fun hnot => ?_⟩
    · rintro line hline rfl
      exact hline.ofText hapart
    · cases honly : onlyTags? d (trimStart text) with
      | none => rw [Line.ofText, honly]
      | some found =>
          have htext : (Line.mk (text.takeWhile isBlank) found.1 found.2).toText = text := by
            rw [Line.toText, List.append_assoc, onlyTags?_append honly, takeWhile_append_trimStart]
          exact absurd htext (hnot _ (Line.isStandalone_of_onlyTags? hapart honly))
  · intro htrims
    by_contra hnot
    rcases exists_of_not_isApart hnot with ⟨tag, htag, hwhole⟩
    have hstandalone : (Line.mk [] (tag ++ tag) [' ']).IsStandalone d := by
      refine ⟨rfl, rfl, [tag, tag], List.cons_ne_nil _ _, ?_, ?_⟩
      · intro other hmem
        rcases List.mem_cons.mp hmem with rfl | hmem
        · exact htag
        · rwa [List.mem_singleton.mp hmem]
      · rw [List.flatten_cons, List.flatten_singleton]
    -- It would be trimmed to its two tags.
    have htrimmed := (htrims (tag ++ tag ++ [' '])).1 _ hstandalone rfl
    rw [hwhole, Line.mk.injEq] at htrimmed
    exact absurd htrimmed.2.2 (List.cons_ne_nil _ _).symm

example : Delimiters.standard.IsApart := by decide

-- The bar that opens the second tag is taken for the one that closes it.
example : Line.ofText
    ⟨['|'], ['|'], by simp [IsDelimiter, isBlank, blankRanges],
      by simp [IsDelimiter, isBlank, blankRanges]⟩
    "|#a||/a|\n".toList = ⟨[], "|#a||/a|\n".toList, []⟩ := by
  with_unfolding_all rfl

end Mustache
