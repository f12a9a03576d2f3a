import Mustache.Proofs.Lines
import Mustache.Proofs.Slices

/-!
# Rows of Tags

What is found by looking ahead for a row of silent tags. A line is trimmed when
a row is found on it, by the first closing delimiter after every opening one and
without regard to what a tag reader would make of them: the closing delimiter may
be found inside of an opening delimiter, or the sigil of a tag may be part of it.

A tag reader looks for the closing delimiter from the sigil on. If no closing
delimiter that holds a sigil can be followed by another one that begins inside of
it, the two agree: what is found ahead of a silent sigil is still a row from there
on, or the tag does not end on the line at all.

## Main definitions

* `Delimiters.IsClear`: No tag can seem to end within its closing delimiter.

## Theorems

* `cut?_eq_of_leftmost`: A word is found where it stands first.
* `Delimiters.isClear_of_not_mem`: Delimiters that begin and end unlike are clear.
* `tagRun?_append_of_sigil`: A row of tags is a row from each of its sigils on.
* `Cursor.readUntil_ahead`: A word is read up to where it stands first on the line.
-/

namespace Mustache

open Text

/-- Where the closing delimiter could begin anew inside of itself and be followed
    by an opening delimiter that it overlaps, no silent sigil stands before. -/
def Delimiters.IsClear (d : Delimiters) : Prop :=
  ∀ front back rest, front ≠ [] → back ≠ [] → d.closing = front ++ back →
    d.closing = back ++ rest → (rest <+: d.opening ∨ d.opening <+: rest) →
    ∀ sigil ∈ silentSigils, sigil ∉ front

/-- Delimiters are clear if the opening one begins with a character that the
    closing one does not have. -/
theorem Delimiters.isClear_of_not_mem {d : Delimiters}
    (h : ∀ ch ∈ d.opening.head?, ch ∉ d.closing) : d.IsClear := by
  intro front back rest hfront _ hclosing hrest hcompare
  exfalso
  have hlength := congrArg List.length (hclosing.symm.trans hrest)
  have hpos := List.length_pos_iff.mpr hfront
  rw [List.length_append, List.length_append] at hlength
  -- What is left of the closing delimiter is not empty, or it would be as long as a
  -- part of itself.
  cases rest with
  | nil =>
      rw [List.length_nil] at hlength
      omega
  | cons ch rest =>
      -- Both begin with the same character.
      have hmem : ch ∈ d.opening.head? := by
        rcases hcompare with ⟨more, hmore⟩ | hbegins
        · rw [← hmore]
          rfl
        · cases hopening : d.opening with
          | nil => exact absurd hopening d.opening_ne_nil
          | cons first opening =>
              rw [hopening, List.cons_prefix_cons] at hbegins
              rw [hbegins.1]
              rfl
      refine h ch hmem ?_
      rw [hrest]
      exact List.mem_append_right _ List.mem_cons_self

theorem Delimiters.isClear_standard : Delimiters.standard.IsClear := by
  refine Delimiters.isClear_of_not_mem ?_
  intro ch hch
  rw [← Option.some.inj hch]
  decide

theorem isBlank_of_mem_silentSigils {sigil : Char} (h : sigil ∈ silentSigils) :
    isBlank sigil = false := by
  have hall : silentSigils.all (fun sigil => !isBlank sigil) = true := by decide
  have hsigil := List.all_eq_true.mp hall sigil h
  rwa [Bool.not_eq_true'] at hsigil

section

variable {word text front back rest : List Char} {ch : Char}

theorem cut?_cons_of_begins (h : word <+: ch :: text) :
    cut? word (ch :: text) = some ([], (ch :: text).drop word.length) := by
  rw [cut?, if_pos (List.isPrefixOf_iff_prefix.mpr h)]

/-- A word that is not at the start of a text is looked for behind the first
    character. -/
theorem cut?_cons_of_not_begins (h : ¬ word <+: ch :: text) :
    cut? word (ch :: text) = (cut? word text).map fun found => (ch :: found.1, found.2) := by
  rw [cut?, if_neg (by rwa [List.isPrefixOf_iff_prefix])]

/-- What is found past the beginning of a text is found without it. -/
theorem cut?_of_append (h : cut? word (front ++ text) = some (front ++ back, rest)) :
    cut? word text = some (back, rest) := by
  induction front with
  | nil => exact h
  | cons ch front ih =>
      rw [List.cons_append] at h
      -- The word is not found at the start, since something comes before it.
      by_cases hword : word <+: ch :: (front ++ text)
      · rw [cut?_cons_of_begins hword, Option.some.injEq, Prod.mk.injEq] at h
        exact absurd h.1.symm (List.cons_ne_nil _ _)
      · rw [cut?_cons_of_not_begins hword] at h
        rcases Option.map_eq_some_iff.mp h with ⟨⟨first, last⟩, hcut, heq⟩
        simp only [List.cons_append, Prod.mk.injEq, List.cons.injEq, true_and] at heq
        rw [heq.1, heq.2] at hcut
        exact ih hcut

/-- A word that begins nowhere in the first part of a text is found in the
    second part. -/
theorem cut?_append_of_not_begins
    (h : ∀ before after, front = before ++ after → after ≠ [] → ¬ word <+: after ++ text) :
    cut? word (front ++ text) = (cut? word text).map fun found => (front ++ found.1, found.2) := by
  induction front with
  | nil =>
      rw [List.nil_append]
      cases cut? word text with
      | none => rfl
      | some found => rfl
  | cons ch front ih =>
      have hfirst : ¬ word <+: ch :: (front ++ text) :=
        h [] (ch :: front) rfl (List.cons_ne_nil _ _)
      have hrest := ih fun before after hfront hafter =>
        h (ch :: before) after (congrArg (ch :: ·) hfront) hafter
      rw [List.cons_append, cut?_cons_of_not_begins hfirst, hrest, Option.map_map]
      rfl

/-- What is found first is not found after another place where the word stands. -/
theorem length_le_of_cut? (h : cut? word (front ++ word ++ rest) = some (back, text)) :
    back.length ≤ front.length := by
  induction front generalizing back with
  | nil =>
      rw [List.nil_append] at h
      -- It stands at the start of this text.
      cases hwhole : word ++ rest with
      | nil =>
          rw [hwhole, cut?] at h
          split at h
          case isTrue =>
            rw [Option.some.injEq, Prod.mk.injEq] at h
            rw [← h.1]
          case isFalse => simp only [reduceCtorEq] at h
      | cons ch whole =>
          rw [hwhole, cut?_cons_of_begins ⟨rest, hwhole⟩, Option.some.injEq, Prod.mk.injEq] at h
          rw [← h.1]
  | cons ch front ih =>
      rw [List.cons_append, List.cons_append] at h
      by_cases hword : word <+: ch :: (front ++ word ++ rest)
      · rw [cut?_cons_of_begins hword, Option.some.injEq, Prod.mk.injEq] at h
        rw [← h.1]
        exact Nat.zero_le _
      · rw [cut?_cons_of_not_begins hword] at h
        rcases Option.map_eq_some_iff.mp h with ⟨⟨first, last⟩, hcut, heq⟩
        simp only [Prod.mk.injEq] at heq
        rw [heq.2] at hcut
        have hle := ih hcut
        rw [← heq.1, List.length_cons, List.length_cons]
        omega

/-- A text without the word does not have it after one more character either,
    unless it ends with it. -/
theorem cut?_concat (h : cut? word text = none)
    (hjust : justRead word (ch :: text.reverse) = false) : cut? word (text ++ [ch]) = none := by
  cases hcut : cut? word (text ++ [ch]) with
  | none => rfl
  | some found =>
      rcases found with ⟨before, after⟩
      have hwhole := eq_of_cut? hcut
      rcases List.eq_nil_or_concat after with rfl | ⟨more, last, rfl⟩
      · -- The word would have just been read.
        have hread : justRead word (ch :: text.reverse) = true := by
          have hreverse := congrArg List.reverse hwhole
          rw [List.append_nil, List.reverse_append, List.reverse_append, List.reverse_singleton,
            List.singleton_append] at hreverse
          rw [justRead, List.isPrefixOf_iff_prefix, hreverse]
          exact List.prefix_append _ _
        rw [hread] at hjust
        exact absurd hjust.symm Bool.false_ne_true
      · rw [List.concat_eq_append, ← List.append_assoc] at hwhole
        rcases List.append_inj' hwhole rfl with ⟨htext, _⟩
        rw [htext] at h
        exact absurd h (Window.cut?_ne_none before word more)

/-- A word is found where it stands first: where reading has come to its end and
    did not find it before. -/
theorem cut?_eq_of_leftmost (hword : word ≠ []) (hlast : ∀ more ch, front ++ word = more ++ [ch] →
    cut? word more = none) : cut? word (front ++ word ++ rest) = some (front, rest) := by
  rcases List.eq_nil_or_concat word with hnil | ⟨init, last, hconcat⟩
  · exact absurd hnil hword
  · rw [List.concat_eq_append] at hconcat
    have hnone : cut? word (front ++ init) = none :=
      hlast (front ++ init) last (by rw [hconcat, List.append_assoc])
    cases hcut : cut? word (front ++ word ++ rest) with
    | none => exact absurd hcut (Window.cut?_ne_none front word rest)
    | some found =>
        rcases found with ⟨before, after⟩
        have hle := length_le_of_cut? hcut
        have hwhole := eq_of_cut? hcut
        -- It is not found behind this place, so it is found here or before.
        rcases Nat.lt_or_ge before.length front.length with hlt | hge
        · -- The word would have been found before its last character was read.
          have hfound : before ++ word <+: front ++ word ++ rest := ⟨after, hwhole.symm⟩
          have hread : front ++ init <+: front ++ word ++ rest := by
            refine ⟨last :: rest, ?_⟩
            rw [hconcat]
            simp only [List.append_assoc, List.cons_append, List.nil_append]
          have hlength := congrArg List.length hconcat
          rw [List.length_append, List.length_singleton] at hlength
          have hshort : before ++ word <+: front ++ init := by
            refine List.prefix_of_prefix_length_le hfound hread ?_
            rw [List.length_append, List.length_append]
            omega
          rcases hshort with ⟨more, hmore⟩
          rw [← hmore] at hnone
          exact absurd hnone (Window.cut?_ne_none before word more)
        · have hsame : before.length = front.length := Nat.le_antisymm hle hge
          rw [List.append_assoc, List.append_assoc] at hwhole
          rcases List.append_inj hwhole hsame.symm with ⟨rfl, hrest⟩
          rw [List.append_cancel_left hrest]

/-- There is no closing delimiter among blanks. -/
theorem cut?_closing_of_blank {d : Delimiters} (h : text.all isBlank = true) :
    cut? d.closing text = none := by
  cases hcut : cut? d.closing text with
  | none => rfl
  | some found =>
      rcases found with ⟨before, after⟩
      rw [eq_of_cut? hcut, List.all_append, List.all_append, Bool.and_eq_true, Bool.and_eq_true]
        at h
      rcases List.exists_mem_of_ne_nil d.closing d.closing_ne_nil with ⟨ch, hmem⟩
      have hblank := List.all_eq_true.mp h.1.2 ch hmem
      exact absurd hmem (d.not_mem_closing hblank)

end

section

variable {d : Delimiters} {text text' before before' rest run trail : List Char}

/-- A row goes on behind the next closing delimiter if another tag starts there. -/
theorem tagRun?_of_cut (h : cut? d.closing text = some (before, rest)) :
    tagRun? d text =
      if startsTag d rest then
        (tagRun? d rest).map fun found => (before ++ d.closing ++ found.1, found.2)
      else some (before ++ d.closing, rest) := by
  rw [tagRun?]
  split
  case h_1 h' => exact absurd (h'.symm.trans h) (Option.some_ne_none _).symm
  case h_2 h' =>
    rw [h, Option.some.injEq, Prod.mk.injEq] at h'
    rw [h'.1, h'.2]

/-- From which place a row of tags is looked for does not matter, as long as the
    next closing delimiter is the same. -/
theorem tagRun?_congr (h : cut? d.closing text = some (before, rest))
    (h' : cut? d.closing text' = some (before', rest)) (hrun : tagRun? d text = some (run, trail)) :
    ∃ run', tagRun? d text' = some (run', trail) := by
  rw [tagRun?_of_cut h] at hrun
  rw [tagRun?_of_cut h']
  by_cases hstart : startsTag d rest = true
  · rw [if_pos hstart] at hrun ⊢
    rcases Option.map_eq_some_iff.mp hrun with ⟨found, hfound, heq⟩
    rw [Prod.mk.injEq] at heq
    rw [hfound, Option.map_some, heq.2]
    exact ⟨_, rfl⟩
  · rw [if_neg hstart, Option.some.injEq, Prod.mk.injEq] at hrun
    rw [if_neg hstart, hrun.2]
    exact ⟨_, rfl⟩

/-- After a closing delimiter of a row there is another tag of it, or the rest. -/
theorem tagRun?_rest (hcut : cut? d.closing text = some (before, rest))
    (h : tagRun? d text = some (run, trail)) :
    (startsTag d rest = true ∧ ∃ more, tagRun? d rest = some (more, trail)) ∨ rest = trail := by
  rw [tagRun?_of_cut hcut] at h
  by_cases hstart : startsTag d rest = true
  · rw [if_pos hstart] at h
    rcases Option.map_eq_some_iff.mp h with ⟨found, hfound, heq⟩
    rw [Prod.mk.injEq] at heq
    exact Or.inl ⟨hstart, found.1, by rw [hfound, ← heq.2]⟩
  · rw [if_neg hstart, Option.some.injEq, Prod.mk.injEq] at h
    exact Or.inr h.2

/-- A row has a closing delimiter. -/
theorem exists_cut?_of_tagRun? (h : tagRun? d text = some (run, trail)) :
    ∃ before rest, cut? d.closing text = some (before, rest) := by
  cases hcut : cut? d.closing text with
  | some found => exact ⟨found.1, found.2, rfl⟩
  | none =>
      rw [tagRun?] at h
      split at h
      case h_1 => simp only [reduceCtorEq] at h
      case h_2 h' => exact absurd (h'.symm.trans hcut) (Option.some_ne_none _)

end

section

variable {d : Delimiters} {front rest text run trail : List Char} {sigil : Char}

/-- A closing delimiter that ends with `front`, a silent sigil among it, is
    followed by blanks or by another tag, so no other one begins inside of it. -/
theorem not_prefix_of_isClear (hclear : d.IsClear) (hsilent : sigil ∈ silentSigils)
    {before after : List Char} (hclosing : d.closing = front ++ (before ++ after))
    (hfront : front ≠ [])
    (hsigil : front.getLast? = some sigil ∨ (before ++ after).head? = some sigil)
    (hafter : after ≠ []) (hrest : rest.all isBlank = true ∨ d.opening <+: rest) :
    ¬ d.closing <+: after ++ rest := by
  intro hbegins
  have hlength : after.length < d.closing.length := by
    have hpos := List.length_pos_iff.mpr hfront
    rw [hclosing, List.length_append, List.length_append]
    omega
  have hshort := List.prefix_of_prefix_length_le (List.prefix_append after rest) hbegins
    (Nat.le_of_lt hlength)
  -- The closing delimiter would begin inside of itself and end in what follows.
  rcases hshort with ⟨more, hmore⟩
  rw [← hmore, List.prefix_append_right_inj] at hbegins
  have hnil : more ≠ [] := by
    rintro rfl
    rw [List.append_nil] at hmore
    rw [hmore] at hlength
    exact absurd hlength (Nat.lt_irrefl _)
  rcases hrest with hblank | hopening
  · -- What follows the line's last tag has no character of a delimiter.
    rcases List.exists_mem_of_ne_nil more hnil with ⟨ch, hmem⟩
    have hch := List.all_eq_true.mp hblank ch (hbegins.subset hmem)
    refine d.not_mem_closing hch ?_
    rw [← hmore]
    exact List.mem_append_right _ hmem
  · have hnot := hclear (front ++ before) after more
      (List.append_ne_nil_of_left_ne_nil hfront _) hafter
      (by rw [hclosing, List.append_assoc]) hmore.symm
      (List.prefix_or_prefix_of_prefix hbegins hopening) sigil hsilent
    refine hnot ?_
    rcases hsigil with hlast | hhead
    · exact List.mem_append_left _ (List.mem_of_getLast? hlast)
    · cases before with
      | cons ch before =>
          rw [List.cons_append, List.head?_cons, Option.some.injEq] at hhead
          rw [hhead]
          exact List.mem_append_right _ List.mem_cons_self
      | nil =>
          -- The closing delimiter begins with the sigil.
          have hhead' : d.closing.head? = some sigil := by
            rw [← hmore, List.head?_append_of_ne_nil _ hafter]
            exact hhead
          rw [hclosing, List.head?_append_of_ne_nil _ hfront] at hhead'
          exact List.mem_append_left _ (List.mem_of_mem_head? hhead')

/-- A word in a text of two parts stands in the second part, over the seam, or
    in the first part. -/
theorem append_word_cases {word content : List Char} (h : content ++ word ++ rest = front ++ text) :
    (∃ more, content = front ++ more ∧ text = more ++ word ++ rest) ∨
      (∃ init tail, init ≠ [] ∧ front = content ++ init ∧ word = init ++ tail ∧
        text = tail ++ rest) ∨
      (∃ more, more ≠ [] ∧ front = content ++ word ++ more ∧ rest = more ++ text) := by
  rw [List.append_assoc, List.append_eq_append_iff] at h
  rcases h with ⟨init, hfront, hwhole⟩ | ⟨more, hcontent, htext⟩
  · -- A word that starts at the seam stands in the second part.
    by_cases hinit : init = []
    · rw [hinit, List.append_nil] at hfront
      rw [hinit, List.nil_append] at hwhole
      exact Or.inl ⟨[], by rw [hfront, List.append_nil], hwhole.symm⟩
    · rcases List.append_eq_append_iff.mp hwhole with ⟨more, hmore, hrest⟩ | ⟨tail, hword, htext⟩
      · by_cases hnil : more = []
        · rw [hnil, List.append_nil] at hmore
          rw [hnil, List.nil_append] at hrest
          exact Or.inr (Or.inl ⟨init, [], hinit, hfront, by rw [hmore, List.append_nil],
            hrest.symm⟩)
        · exact Or.inr (Or.inr ⟨more, hnil, by rw [hfront, hmore, List.append_assoc], hrest⟩)
      · exact Or.inr (Or.inl ⟨init, tail, hinit, hfront, hword, htext⟩)
  · exact Or.inl ⟨more, hcontent, by rw [htext, List.append_assoc]⟩

/-- A row of tags is a row from each of its sigils on, unless no closing delimiter
    follows the sigil at all. -/
theorem tagRun?_append_of_sigil (hclear : d.IsClear) (hsilent : sigil ∈ silentSigils)
    (hsigil : front.getLast? = some sigil ∨ text.head? = some sigil)
    (h : tagRun? d (front ++ text) = some (run, trail)) (htrail : trail.all isBlank = true) :
    (∃ run', tagRun? d text = some (run', trail)) ∨ cut? d.closing text = none := by
  -- By induction on what stands before the sigil.
  induction hlength : front.length using Nat.strong_induction_on generalizing front run with
  | _ length ih =>
      rcases exists_cut?_of_tagRun? h with ⟨content, rest, hcut⟩
      have hrest := tagRun?_rest hcut h
      rcases append_word_cases (eq_of_cut? hcut).symm with
        ⟨more, rfl, _⟩ | ⟨init, tail, hinit, rfl, hclosing, rfl⟩ | ⟨more, hmore, hfront, rfl⟩
      · exact Or.inl (tagRun?_congr hcut (cut?_of_append hcut) h)
      · -- The closing delimiter holds the sigil, or ends right before it.
        rw [List.getLast?_append_of_ne_nil _ hinit] at hsigil
        have hnext : rest.all isBlank = true ∨ d.opening <+: rest := by
          rcases hrest with ⟨hstart, _⟩ | rfl
          · rw [startsTag, Bool.and_eq_true, List.isPrefixOf_iff_prefix] at hstart
            exact Or.inr hstart.1
          · exact Or.inl htrail
        have hskip : cut? d.closing (tail ++ rest) =
            (cut? d.closing rest).map fun found => (tail ++ found.1, found.2) := by
          refine cut?_append_of_not_begins fun before after htail hafter => ?_
          subst htail
          refine not_prefix_of_isClear hclear hsilent hclosing hinit ?_ hafter hnext
          rwa [List.head?_append_of_ne_nil _ (List.append_ne_nil_of_right_ne_nil _ hafter)]
            at hsigil
        rcases hrest with ⟨_, more, hmore⟩ | rfl
        · rcases exists_cut?_of_tagRun? hmore with ⟨before, after, hfound⟩
          rw [hfound, Option.map_some] at hskip
          exact Or.inl (tagRun?_congr hfound hskip hmore)
        · rw [cut?_closing_of_blank htrail, Option.map_none] at hskip
          exact Or.inr hskip
      · -- The closing delimiter stands before the sigil, so another tag follows it.
        rw [hfront, List.getLast?_append_of_ne_nil _ hmore] at hsigil
        rcases hrest with ⟨_, found, hfound⟩ | hblank
        · have hpos := List.length_pos_iff.mpr d.closing_ne_nil
          have hlt : more.length < length := by
            rw [← hlength, hfront, List.length_append, List.length_append]
            omega
          exact ih more.length hlt hsigil hfound rfl
        · exfalso
          have hmem : sigil ∈ more ++ text := by
            rcases hsigil with hlast | hhead
            · exact List.mem_append_left _ (List.mem_of_getLast? hlast)
            · exact List.mem_append_right _ (List.mem_of_mem_head? hhead)
          rw [hblank] at hmem
          have hsigilBlank := List.all_eq_true.mp htrail sigil hmem
          rw [isBlank_of_mem_silentSigils hsilent] at hsigilBlank
          exact Bool.false_ne_true hsigilBlank

end

namespace Cursor

variable {c : Cursor} {word buffer taken front rest : List Char}

/-- A word is found on the rest of the line where it stands first. -/
theorem readFrom_ahead (hahead : c.ahead = taken ++ rest) (htaken : taken ≠ [])
    (hfront : front ++ word = buffer.reverse ++ taken)
    (hfirst : ∀ more ch, front ++ word = more ++ [ch] → cut? word more = none) :
    readFrom word buffer c =
      ⟨front, true, { c with read := taken.reverse ++ c.read, ahead := rest }⟩ := by
  induction taken generalizing c buffer with
  | nil => exact absurd rfl htaken
  | cons ch taken ih =>
      rw [List.cons_append] at hahead
      rw [readFrom_of_next word buffer (next?_ahead hahead)]
      -- The induction is on the characters that are taken. Only the last one ends the
      -- word.
      rcases List.eq_nil_or_concat taken with rfl | ⟨init, last, hconcat⟩
      · -- The last character of the word.
        have hread : ch :: buffer = word.reverse ++ front.reverse := by
          rw [← List.reverse_append, hfront, List.reverse_append, List.reverse_reverse,
            List.reverse_singleton, List.singleton_append]
        have hjust : justRead word (ch :: buffer) = true := by
          rw [justRead, List.isPrefixOf_iff_prefix, hread]
          exact List.prefix_append _ _
        rw [if_pos hjust, hread, ← List.length_reverse, List.drop_left, List.reverse_reverse]
        rfl
      · have hmore : front ++ word = buffer.reverse ++ ch :: init ++ [last] := by
          rw [hfront, hconcat, List.concat_eq_append, List.append_assoc, List.cons_append]
        have hjust : ¬ justRead word (ch :: buffer) = true := by
          rw [justRead, List.isPrefixOf_iff_prefix]
          rintro ⟨more, hword⟩
          have hfound : buffer.reverse ++ ch :: init = more.reverse ++ word ++ init := by
            have hreverse := congrArg List.reverse hword
            rw [List.reverse_append, List.reverse_reverse, List.reverse_cons] at hreverse
            rw [hreverse, List.append_assoc, List.singleton_append]
          have hnone := hfirst _ last hmore
          rw [hfound] at hnone
          exact Window.cut?_ne_none _ word init hnone
        have hnil : taken ≠ [] := by
          rw [hconcat, List.concat_eq_append]
          exact List.append_ne_nil_of_right_ne_nil _ (List.cons_ne_nil _ _)
        have hbuffer : front ++ word = (ch :: buffer).reverse ++ taken := by
          rw [hfront, List.reverse_cons, List.append_assoc, List.singleton_append]
        rw [if_neg hjust, ih rfl hnil hbuffer, List.reverse_cons, List.append_assoc,
          List.singleton_append]

/-- So reading up to it is reading the rest of the line up to there. -/
theorem readUntil_ahead (hahead : c.ahead = front ++ word ++ rest) (hword : word ≠ [])
    (hfirst : ∀ more ch, front ++ word = more ++ [ch] → cut? word more = none) :
    c.readUntil word =
      ⟨front, true, { c with read := (front ++ word).reverse ++ c.read, ahead := rest }⟩ :=
  readFrom_ahead hahead (List.append_ne_nil_of_right_ne_nil _ hword) rfl hfirst

end Cursor

end Mustache
