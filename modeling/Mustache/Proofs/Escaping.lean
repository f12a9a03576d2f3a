import Mustache.Render

/-!
# Escaped Text

What escaping makes of a text. The eight characters are replaced in eight passes,
one after the other, and each pass goes over the entities that the passes before
it wrote. Still the result is the one of a single pass that writes every character
on its own: the ampersand is replaced first, and no entity holds a character that
is replaced after it.

Written on their own, characters can be read back. An entity begins with an
ampersand and differs from the other entities within its first characters, and
nothing else in an escaped text begins with an ampersand. So no two texts are
escaped alike, and none of the eight characters stands in an escaped text but at
the start of an entity.

## Main definitions

* `markup`: The characters that never stand in an escaped text.
* `written`: How a character is written in an escaped text.
* `IsEscaped`: A text without markup, whose ampersands begin entities.

## Theorems

* `escapeChars_eq_flatMap`: The passes come to one pass over the characters.
* `written_append_inj`: The first character of an escaped text can be read back.
* `isEscaped_flatMap`: What the pass writes is escaped.
* `renderSegment_escaped`: So is whatever an escaped value shows.
-/

namespace Mustache

namespace Text

/-- The characters that never stand in an escaped text. -/
def markup : List Char :=
  ['<', '>', '"', '\'', '/', '=', '`']

/-- How a character is written in an escaped text. -/
def written : Char → List Char
  | '&' => "&amp;".toList
  | '<' => "&lt;".toList
  | '>' => "&gt;".toList
  | '"' => "&quot;".toList
  | '\'' => "&#39;".toList
  | '/' => "&#47;".toList
  | '=' => "&#61;".toList
  | '`' => "&#96;".toList
  | c => [c]

/-- The text has no markup, and every ampersand in it begins the entity of a
    character. -/
structure IsEscaped (text : List Char) : Prop where
  not_mem_markup : ∀ c ∈ text, c ∉ markup
  entity_of_ampersand : ∀ front back, text = front ++ '&' :: back →
    ∃ c ∈ '&' :: markup, written c <+: '&' :: back

/-- A character that is not replaced stays as it is. -/
theorem written_of_not_mem {c : Char} (h : c ∉ '&' :: markup) : written c = [c] := by
  -- All but the last case write an entity.
  unfold written
  split
  case h_9 => rfl
  all_goals exact absurd (by decide) h

/-- A character is written as an entity, which has no other ampersand and no
    markup, or it stays as it is. -/
theorem written_cases (c : Char) :
    (c ∈ '&' :: markup ∧ ∃ body, written c = '&' :: body ∧ ∀ x ∈ body, x ∉ '&' :: markup) ∨
      (c ∉ '&' :: markup ∧ written c = [c]) := by
  by_cases hmem : c ∈ '&' :: markup
  · left
    refine ⟨hmem, ?_⟩
    -- There are only eight entities, so they are gone through.
    have hall : ('&' :: markup).all (fun c => (written c).head? == some '&' &&
        (written c).tail.all fun x => !('&' :: markup).contains x) = true := by decide
    have hc := List.all_eq_true.mp hall c hmem
    rw [Bool.and_eq_true, beq_iff_eq] at hc
    refine ⟨(written c).tail, ?_, fun x hx => ?_⟩
    · exact (List.head?_eq_some_iff.mp hc.1).elim fun body hbody => by rw [hbody]; rfl
    · have hx' := List.all_eq_true.mp hc.2 x hx
      rwa [Bool.not_eq_true', List.contains_eq_mem, decide_eq_false_iff_not] at hx'
  · exact Or.inr ⟨hmem, written_of_not_mem hmem⟩

/-- Every character is written with some character. -/
theorem written_ne_nil (c : Char) : written c ≠ [] := by
  rcases written_cases c with ⟨_, body, hbody, _⟩ | ⟨_, hsame⟩
  · rw [hbody]
    exact List.cons_ne_nil _ _
  · rw [hsame]
    exact List.cons_ne_nil _ _

/-- Replacements made one after the other are made for each character on its
    own. -/
theorem foldl_replaceChar (table : List (Char × String)) (text : List Char) :
    table.foldl (fun text entity => replaceChar entity.1 entity.2.toList text) text =
      text.flatMap fun c =>
        table.foldl (fun text entity => replaceChar entity.1 entity.2.toList text) [c] := by
  induction table generalizing text with
  | nil => exact (List.flatMap_singleton' text).symm
  | cons entity table ih =>
      -- The first replacement makes a text of every character, and the others go over
      -- it.
      have hfirst : ∀ c, replaceChar entity.1 entity.2.toList [c] =
          if c = entity.1 then entity.2.toList else [c] := fun c => List.append_nil _
      simp only [List.foldl_cons, hfirst]
      rw [ih (replaceChar entity.1 entity.2.toList text), replaceChar, List.flatMap_assoc]
      refine congrArg (text.flatMap ·) (funext fun c => ?_)
      rw [← ih]

/-- The passes over a single character write it. -/
theorem escapeChars_singleton (c : Char) : escapeChars [c] = written c := by
  -- The passes over a single character. No entity is changed by a later pass.
  by_cases hmem : c ∈ '&' :: markup
  · simp only [markup, List.mem_cons, List.not_mem_nil, or_false] at hmem
    rcases hmem with rfl | rfl | rfl | rfl | rfl | rfl | rfl | rfl
    all_goals rfl
  · rw [written_of_not_mem hmem]
    simp only [markup, List.mem_cons, List.not_mem_nil, or_false, not_or] at hmem
    simp only [escapeChars, entities, List.foldl_cons, List.foldl_nil, replaceChar,
      List.flatMap_singleton, hmem, if_false]

/-- The passes come to one pass over the characters. -/
theorem escapeChars_eq_flatMap (text : List Char) : escapeChars text = text.flatMap written := by
  have hpass := foldl_replaceChar entities text
  have hchar : (fun c => escapeChars [c]) = written := funext escapeChars_singleton
  rw [← hchar]
  exact hpass

/-- No entity is the beginning of another one. -/
theorem eq_of_isPrefix_written {a b : Char} (ha : a ∈ '&' :: markup) (hb : b ∈ '&' :: markup)
    (h : written a <+: written b) : a = b := by
  -- All pairs of entities are compared.
  have hall : ('&' :: markup).all (fun a => ('&' :: markup).all fun b =>
      !(written a).isPrefixOf (written b) || a == b) = true := by decide
  have hpair := List.all_eq_true.mp (List.all_eq_true.mp hall a ha) b hb
  rw [List.isPrefixOf_iff_prefix.mpr h, Bool.not_true, Bool.false_or, beq_iff_eq] at hpair
  exact hpair

/-- Only an entity begins with an ampersand. -/
theorem mem_of_written_append {a b : Char} {x y : List Char} (ha : a ∈ '&' :: markup)
    (h : written a ++ x = written b ++ y) : b ∈ '&' :: markup := by
  rcases written_cases a with ⟨_, entity, hentity, _⟩ | ⟨hnot, _⟩
  · rcases written_cases b with ⟨hb, _⟩ | ⟨_, hsame⟩
    · exact hb
    · rw [hentity, hsame, List.cons_append, List.singleton_append, List.cons.injEq] at h
      rw [← h.1]
      exact List.mem_cons_self
  · exact absurd ha hnot

/-- The first character of an escaped text can be read back, and so can the
    rest. -/
theorem written_append_inj {a b : Char} {x y : List Char} (h : written a ++ x = written b ++ y) :
    a = b ∧ x = y := by
  -- One of two entities at the start of a text begins with the other.
  have hchar : a = b := by
    by_cases ha : a ∈ '&' :: markup
    · have hb := mem_of_written_append ha h
      have hother : written b <+: written a ++ x := ⟨y, h.symm⟩
      rcases List.prefix_or_prefix_of_prefix (List.prefix_append (written a) x) hother with
        hprefix | hprefix
      · exact eq_of_isPrefix_written ha hb hprefix
      · exact (eq_of_isPrefix_written hb ha hprefix).symm
    · have hb : b ∉ '&' :: markup := fun hmem => ha (mem_of_written_append hmem h.symm)
      rw [written_of_not_mem ha, written_of_not_mem hb, List.singleton_append,
        List.singleton_append, List.cons.injEq] at h
      exact h.1
  subst hchar
  exact ⟨rfl, List.append_cancel_left h⟩

/-- No two texts are written alike. -/
theorem flatMap_written_injective : Function.Injective (List.flatMap written) := by
  intro front
  -- The texts are read back character by character, from the front.
  induction front with
  | nil =>
      intro back h
      cases back with
      | nil => rfl
      | cons b back =>
          rw [List.flatMap_nil, List.flatMap_cons] at h
          exact absurd h.symm (List.append_ne_nil_of_left_ne_nil (written_ne_nil b) _)
  | cons a front ih =>
      intro back h
      cases back with
      | nil =>
          rw [List.flatMap_nil, List.flatMap_cons] at h
          exact absurd h (List.append_ne_nil_of_left_ne_nil (written_ne_nil a) _)
      | cons b back =>
          rw [List.flatMap_cons, List.flatMap_cons] at h
          rcases written_append_inj h with ⟨rfl, hrest⟩
          rw [ih hrest]

/-- An ampersand in the writing of a character is its first character. -/
theorem written_prefix_of_ampersand {c : Char} {front more back rest : List Char}
    (hwritten : written c = front ++ more) (hmore : more ≠ [])
    (hrest : '&' :: back = more ++ rest) :
    c ∈ '&' :: markup ∧ written c <+: '&' :: back := by
  cases more with
  | nil => exact absurd rfl hmore
  | cons first more =>
      rw [List.cons_append, List.cons.injEq] at hrest
      rcases hrest with ⟨rfl, hback⟩
      rcases written_cases c with ⟨hmem, body, hbody, hplain⟩ | ⟨hmem, hsame⟩
      · -- Behind the first character of an entity there is no other ampersand.
        cases front with
        | nil =>
            rw [List.nil_append] at hwritten
            exact ⟨hmem, rest, by rw [hwritten, hback, List.cons_append]⟩
        | cons x front =>
            rw [hbody, List.cons_append, List.cons.injEq] at hwritten
            have hampersand : '&' ∈ body := by
              rw [hwritten.2]
              exact List.mem_append_right _ List.mem_cons_self
            exact absurd List.mem_cons_self (hplain '&' hampersand)
      · rw [hsame] at hwritten
        have hampersand : '&' ∈ [c] := by
          rw [hwritten]
          exact List.mem_append_right _ List.mem_cons_self
        rw [← List.mem_singleton.mp hampersand] at hmem
        exact absurd List.mem_cons_self hmem

/-- What is written character by character is escaped. -/
theorem isEscaped_flatMap (text : List Char) : IsEscaped (text.flatMap written) where
  not_mem_markup := by
    intro x hx hmarkup
    rcases List.mem_flatMap.mp hx with ⟨c, _, hmem⟩
    rcases written_cases c with ⟨_, body, hbody, hplain⟩ | ⟨hplain, hsame⟩
    · rw [hbody] at hmem
      rcases List.mem_cons.mp hmem with rfl | hbodyMem
      · exact absurd hmarkup (by decide)
      · exact hplain x hbodyMem (List.mem_cons_of_mem _ hmarkup)
    · rw [hsame] at hmem
      rw [List.mem_singleton.mp hmem] at hmarkup
      exact hplain (List.mem_cons_of_mem _ hmarkup)
  entity_of_ampersand := by
    induction text with
    | nil =>
        intro front back h
        exact absurd h.symm (List.append_ne_nil_of_right_ne_nil _ (List.cons_ne_nil _ _))
    | cons c text ih =>
        intro front back h
        rw [List.flatMap_cons] at h
        -- The ampersand comes after what the first character is written as, or it is in
        -- it.
        rcases List.append_eq_append_iff.mp h with ⟨more, _, hrest⟩ | ⟨more, hwritten, hrest⟩
        · exact ih more back hrest
        · by_cases hmore : more = []
          · rw [hmore, List.nil_append] at hrest
            exact ih [] back (by rw [← hrest, List.nil_append])
          · rcases written_prefix_of_ampersand hwritten hmore hrest with ⟨hmem, hprefix⟩
            exact ⟨c, hmem, hprefix⟩

theorem toList_escape (text : String) : (escape text).toList = text.toList.flatMap written := by
  rw [escape, String.toList_ofList, escapeChars_eq_flatMap]

end Text

open Text

variable {σ ρ : Type}

/-- A value shows its text, escaped or as it is. -/
theorem renderSegment_value (env : Environment σ ρ) (name : String) (isEscaped : Bool)
    (place : Place σ) (state : Host σ × ρ) :
    renderSegment env (.value name isEscaped) place state =
      ((renderValue env name place state).1.map
        fun text => some (if isEscaped then escape text else text),
        (renderValue env name place state).2) := by
  -- The text of a value is made before it is known whether to escape it.
  rw [renderSegment]
  exact Rendering.map_apply _ _ state

/-- Escaping is complete and can be undone. It writes every character of a text by
    itself, and no two texts are escaped alike. What an escaped value shows, at any
    place and however its text is come by, is what the same value shows unescaped,
    escaped: no markup stands in it, and every ampersand in it begins an entity. -/
theorem renderSegment_escaped (env : Environment σ ρ) :
    (∀ text, escape text = String.ofList (text.toList.flatMap written)) ∧
    Function.Injective escape ∧
    ∀ (name : String) (place : Place σ) (state : Host σ × ρ),
      renderSegment env (.value name true) place state =
        ((renderSegment env (.value name false) place state).1.map (Option.map escape),
          (renderSegment env (.value name false) place state).2) ∧
      ∀ result after, renderSegment env (.value name true) place state = (.ok result, after) →
        ∃ text, result = some text ∧ IsEscaped text.toList := by
  refine ⟨fun text => ?_, fun front back h => ?_, fun name place state => ?_⟩
  · rw [← toList_escape, String.ofList_toList]
  · have hlists := congrArg String.toList h
    rw [toList_escape, toList_escape] at hlists
    exact String.toList_injective (flatMap_written_injective hlists)
  · -- Both values show what is made of one text.
    have hescaped := renderSegment_value env name true place state
    have hplain := renderSegment_value env name false place state
    refine ⟨?_, fun result after h => ?_⟩
    · rw [hescaped, hplain]
      cases (renderValue env name place state).1 with
      | error _ => rfl
      | ok _ => rfl
    · rw [hescaped] at h
      rcases Prod.mk.inj h with ⟨hresult, -⟩
      cases hshown : (renderValue env name place state).1 with
      | error halted =>
          rw [hshown] at hresult
          cases hresult
      | ok shown =>
          rw [hshown] at hresult
          refine ⟨escape shown, (Except.ok.inj hresult).symm, ?_⟩
          rw [toList_escape]
          exact isEscaped_flatMap _

end Mustache
