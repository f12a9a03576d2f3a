import Mustache.Proofs.Shown

/-!
# Indentation of Rendered Text

Rendering inside an indented template compared with indenting the rendered
text. The two differ in what they know of the text so far: indenting sees
whether it ends a line, while rendering hands a flag from segment to segment.
A suppressed segment leaves the flag alone, and so does an item of a list with
an empty text. Any other segment that shows an empty text clears the flag. That
is wrong at a line start: nothing came after the line end, but the next text is
taken not to begin a line, and its indent is lost.

Both flags are followed through the tree here. Rendering an indented template
is indenting its text exactly if the flag is right whenever a text is shown.
What is lost otherwise is told by the flag that says where lines begin.

## Main definitions

* `Segment.Keeps`, `Segment.KeepsAll`: The flag of rendering is right at every
  text.
* `Indents`: What a rendered text has to do with the indented plain text.

## Theorems

* `Text.indentLines_append`: Two texts in a row are indented one by one.
* `Indents.append`: So are rendered texts.
* `Segment.indents_shownAll`: Rendering never indents more than indenting does,
  and as much exactly if it keeps the flag.
* `renderSegments_indent_iff`: When indentation commutes with rendering.
* `not_forall_renderSegments_eq_indentLines`: It does not always do so.
-/

namespace Mustache

namespace Text

theorem isEmpty_eq_isEmpty_toList (text : String) : text.isEmpty = text.toList.isEmpty := by
  rw [Bool.eq_iff_iff, String.isEmpty_iff, List.isEmpty_iff, String.toList_eq_nil_iff]

/-- Two texts in a row are empty if both are. -/
theorem isEmpty_append (front back : String) :
    (front ++ back).isEmpty = (front.isEmpty && back.isEmpty) := by
  rw [isEmpty_eq_isEmpty_toList, isEmpty_eq_isEmpty_toList, isEmpty_eq_isEmpty_toList,
    String.toList_append]
  cases front.toList with
  | nil => rfl
  | cons c text => rfl

/-- Characters after others are indented as the last of these tells. -/
theorem indentChars_append (indent : List Char) (newLine : Bool) (front back : List Char) :
    indentChars indent newLine (front ++ back) =
      indentChars indent newLine front ++
        indentChars indent (if front.isEmpty then newLine else front.getLast? == some '\n')
          back := by
  induction front generalizing newLine with
  | nil => rfl
  | cons c front ih =>
      rw [List.cons_append, indentChars, indentChars, ih]
      -- Only the last character decides whether what follows begins a line.
      cases front with
      | nil =>
          simp only [List.append_assoc, List.cons_append, List.isEmpty_nil, if_true,
            List.isEmpty_cons, Bool.false_eq_true, if_false, List.getLast?_singleton]
          rfl
      | cons d front =>
          simp only [List.append_assoc, List.cons_append, List.isEmpty_cons, Bool.false_eq_true,
            if_false, List.getLast?_cons_cons]

/-- A text after another one is indented as if it stood alone, once it is known
    whether it begins a line. -/
theorem indentLines_append (indent : String) (newLine : Bool) (front back : String) :
    indentLines indent newLine (front ++ back) =
      indentLines indent newLine front ++
        indentLines indent (beginsAfter newLine front) back := by
  rw [indentLines, String.toList_append, indentChars_append, String.ofList_append, beginsAfter,
    isEmpty_eq_isEmpty_toList, endsLine]
  rfl

/-- Without an indent a text stays as it is. -/
theorem indentLines_empty (newLine : Bool) (text : String) :
    indentLines "" newLine text = text := by
  have hchars : ∀ newLine (text : List Char), indentChars [] newLine text = text := by
    intro newLine text
    induction text generalizing newLine with
    | nil => rfl
    | cons c text ih => rw [indentChars, ite_self, List.nil_append, ih]
  rw [indentLines, show ("" : String).toList = [] from rfl, hchars, String.ofList_toList]

/-- An indent goes before a character, so the last one stays the last one. -/
theorem getLast?_indentChars (indent : List Char) (newLine : Bool) (text : List Char) :
    (indentChars indent newLine text).getLast? = text.getLast? := by
  induction text generalizing newLine with
  | nil => rfl
  | cons c text ih =>
      rw [indentChars, List.getLast?_append, List.getLast?_cons, ih, Option.some_or,
        List.getLast?_cons]

theorem isEmpty_indentLines (indent : String) (newLine : Bool) (text : String) :
    (indentLines indent newLine text).isEmpty = text.isEmpty := by
  rw [isEmpty_eq_isEmpty_toList, isEmpty_eq_isEmpty_toList, indentLines, String.toList_ofList,
    Bool.eq_iff_iff, List.isEmpty_iff, List.isEmpty_iff, ← List.getLast?_eq_none_iff,
    getLast?_indentChars, List.getLast?_eq_none_iff]

theorem endsLine_indentLines (indent : String) (newLine : Bool) (text : String) :
    endsLine (indentLines indent newLine text) = endsLine text := by
  rw [endsLine, indentLines, String.toList_ofList, getLast?_indentChars, endsLine]

/-- The last text that is not empty tells whether a line was ended. -/
theorem endsLine_append (front back : String) :
    endsLine (front ++ back) = if back.isEmpty then endsLine front else endsLine back := by
  rw [endsLine, String.toList_append, List.getLast?_append, isEmpty_eq_isEmpty_toList, endsLine,
    endsLine]
  cases hback : back.toList with
  | nil => rfl
  | cons c text => rw [List.getLast?_cons, Option.some_or]; rfl

/-- A line start that does not count saves one indent. -/
theorem length_indentLines (indent : String) {text : String} (h : text ≠ "") :
    (indentLines indent true text).length =
      indent.length + (indentLines indent false text).length := by
  rw [← String.length_toList, ← String.length_toList, ← String.length_toList, indentLines,
    indentLines, String.toList_ofList, String.toList_ofList]
  cases htext : text.toList with
  | nil => exact absurd (String.toList_eq_nil_iff.mp htext) h
  | cons c chars =>
      rw [indentChars, indentChars, if_pos rfl, if_neg Bool.false_ne_true, List.nil_append,
        List.length_append]

end Text

open Text

/-- What a rendered text has to do with the text rendered without an indent. It
    has as many lines with an indent as the indented text at most, and it is
    the indented text exactly if `kept` holds. -/
structure Indents (indent : String) (begins : Bool) (plain shown : String) (kept : Prop) :
    Prop where
  isEmpty_eq : shown.isEmpty = plain.isEmpty
  endsLine_eq : endsLine shown = endsLine plain
  length_le : shown.length ≤ (indentLines indent begins plain).length
  eq_iff : shown = indentLines indent begins plain ↔ kept

namespace Indents

variable {indent : String} {begins : Bool}

/-- Showing nothing is showing the indented empty text. -/
theorem nil : Indents indent begins "" "" True :=
  ⟨rfl, rfl, Nat.zero_le _, iff_of_true rfl trivial⟩

theorem beginsAfter_eq {plain shown : String} {kept : Prop} {newLine : Bool}
    (h : Indents indent begins plain shown kept) :
    beginsAfter newLine shown = beginsAfter newLine plain := by
  rw [beginsAfter, beginsAfter, h.isEmpty_eq, h.endsLine_eq]

/-- What two segments show is the indented text if this is so for each of them,
    and the second one is told rightly where it stands. -/
theorem append {plain shown plain' shown' : String} {kept kept' : Prop}
    (h : Indents indent begins plain shown kept)
    (h' : Indents indent (beginsAfter begins plain) plain' shown' kept') :
    Indents indent begins (plain ++ plain') (shown ++ shown') (kept ∧ kept') := by
  have hle := h.length_le
  have hle' := h'.length_le
  refine ⟨?_, ?_, ?_, ?_⟩
  · rw [isEmpty_append, isEmpty_append, h.isEmpty_eq, h'.isEmpty_eq]
  · rw [endsLine_append, endsLine_append, h'.isEmpty_eq, h.endsLine_eq, h'.endsLine_eq]
  · rw [indentLines_append, String.length_append, String.length_append]
    omega
  · rw [indentLines_append, ← h.eq_iff, ← h'.eq_iff]
    constructor
    · intro heq
      -- Neither part is longer than it should be, so neither is shorter.
      have hlength := congrArg String.length heq
      rw [String.length_append, String.length_append] at hlength
      have happend := congrArg String.toList heq
      rw [String.toList_append, String.toList_append] at happend
      have hparts := List.append_inj happend
        (by rw [String.length_toList, String.length_toList]; omega)
      exact ⟨String.toList_inj.mp hparts.1, String.toList_inj.mp hparts.2⟩
    · rintro ⟨heq, heq'⟩
      rw [heq, heq']

/-- A text is indented in the first place if the flag is right, or if there is
    no first place. -/
theorem ofText {newLine : Bool} (content : String) (hindent : indent ≠ "")
    (hflag : newLine = true → begins = true) :
    Indents indent begins (indentLines "" newLine content) (indentLines indent newLine content)
      (content = "" ∨ newLine = begins) := by
  rw [indentLines_empty]
  by_cases hempty : content = ""
  · rw [hempty]
    exact ⟨rfl, rfl, Nat.le_refl _, iff_of_true rfl (Or.inl rfl)⟩
  · have hlength := length_indentLines indent hempty
    refine ⟨isEmpty_indentLines _ _ _, endsLine_indentLines _ _ _, ?_, ?_⟩
    · cases newLine with
      | true => exact Nat.le_of_eq (by rw [hflag rfl])
      | false =>
          cases begins with
          | true => omega
          | false => exact Nat.le_refl _
    · constructor
      · -- With the flag down at a line start the text is too short by one indent.
        intro heq
        refine Or.inr ?_
        have hne : indent.length ≠ 0 := fun hzero => hindent (String.length_eq_zero_iff.mp hzero)
        cases newLine with
        | true => rw [hflag rfl]
        | false =>
            cases begins with
            | true =>
                rw [← heq] at hlength
                omega
            | false => rfl
      · rintro (hnil | hsame)
        · exact absurd hnil hempty
        · rw [hsame]

end Indents

variable {σ : Type}

/-- The flag is right for each item of a list. An item that shows nothing leaves
    it as it is. -/
def KeepsItems (keeps : Node σ → Bool → Bool → Prop) (plain : Node σ → Bool → String)
    (begins newLine : Bool) : List (Node σ) → Prop
  | [] => True
  | item :: items =>
    keeps item begins newLine ∧
      KeepsItems keeps plain (beginsAfter begins (plain item newLine))
        (beginsAfter newLine (plain item newLine)) items

mutual

/-- Whenever the segment shows a text, the flag of rendering says whether the
    text begins a line. At the segment the flag is `newLine`, and a text there
    begins a line if `begins` holds. -/
def Segment.Keeps (scope : Scope σ) (begins newLine : Bool) : Segment → Prop
  | .text content => content = "" ∨ newLine = begins
  | .value _ _ => True
  | .sect head children => ∀ items, scope.entered? head = some items →
    KeepsItems
      (fun item begins newLine => Segment.KeepsAll (scope.enter item) begins newLine children)
      (fun item newLine => Segment.shownAll (scope.enter item) "" newLine children)
      begins newLine items
  | .inverted name children =>
    scope.lacks name = true → Segment.KeepsAll scope begins newLine children
  | .block (.mk _ children) => Segment.KeepsAll scope begins newLine children
  | .reference _ => True
  | .parent _ _ => True

/-- The flag is right for segments in a row. A suppressed segment leaves it as
    it is, and every other one sets it by its own text, even by an empty one.
    Whether the next text begins a line does not depend on empty texts, so after
    one of them at a line start the flag is wrong. -/
def Segment.KeepsAll (scope : Scope σ) (begins newLine : Bool) : List Segment → Prop
  | [] => True
  | segment :: segments =>
    Segment.Keeps scope begins newLine segment ∧
      match Segment.shown scope "" newLine segment with
      | none => Segment.KeepsAll scope begins newLine segments
      | some shown =>
        Segment.KeepsAll scope (beginsAfter begins shown) (endsLine shown) segments

end

/-- The flag of rendering is up only where the next text begins a line. A text
    in between keeps it so. -/
theorem beginsAfter_imp {begins newLine : Bool} (hflag : newLine = true → begins = true)
    (text : String) (h : beginsAfter newLine text = true) : beginsAfter begins text = true := by
  rw [beginsAfter] at h ⊢
  by_cases hempty : text.isEmpty = true
  · rw [if_pos hempty] at h ⊢
    exact hflag h
  · rwa [if_neg hempty] at h ⊢

/-- An empty text ends no line. -/
theorem beginsAfter_of_endsLine (begins : Bool) {text : String} (h : endsLine text = true) :
    beginsAfter begins text = true := by
  rw [beginsAfter]
  by_cases hempty : text.isEmpty = true
  · rw [String.isEmpty_iff.mp hempty] at h
    exact absurd h (by decide)
  · rwa [if_neg hempty]

/-- The items of a list, of which each one is told by the texts before it where
    it stands. -/
theorem indents_shownItems {indent : String} {keeps : Node σ → Bool → Bool → Prop}
    {plain shown : Node σ → Bool → String}
    (h : ∀ item begins newLine, (newLine = true → begins = true) →
      Indents indent begins (plain item newLine) (shown item newLine) (keeps item begins newLine))
    (items : List (Node σ)) (begins newLine : Bool) (hflag : newLine = true → begins = true) :
    Indents indent begins (shownItems plain newLine items) (shownItems shown newLine items)
      (KeepsItems keeps plain begins newLine items) := by
  induction items generalizing begins newLine with
  | nil => exact .nil
  | cons item items ih =>
      have hitem := h item begins newLine hflag
      rw [shownItems, shownItems, KeepsItems, hitem.beginsAfter_eq]
      exact hitem.append (ih _ _ (beginsAfter_imp hflag _))

/-- The segment shows data, or another template. -/
def Segment.isPlain : Segment → Bool
  | .value _ _ => false
  | .reference _ => false
  | .parent _ _ => false
  | _ => true

theorem Segment.isReference_of_isPlain {segment : Segment} (h : segment.isPlain = true) :
    segment.isReference = false := by
  cases segment with
  | reference r => exact absurd h Bool.noConfusion
  | parent r parameters => exact absurd h Bool.noConfusion
  | _ => rfl

section

variable {indent : String}

-- The induction is on the segments, for all scopes and flags, and carries that
-- the flag is up only at a line start. Either both segments are suppressed, or
-- both show a text.
mutual

/-- A segment is suppressed with an indent and without, or what it shows is the
    indented text as far as the flag is right. -/
theorem Segment.indents_shown (hindent : indent ≠ "") :
    ∀ (segment : Segment) (scope : Scope σ) (begins newLine : Bool),
      segment.Everywhere (fun segment => segment.isPlain = true) →
      (newLine = true → begins = true) →
      (segment.shown scope "" newLine = none ∧ segment.shown scope indent newLine = none ∧
        segment.Keeps scope begins newLine) ∨
      ∃ plain shown, segment.shown scope "" newLine = some plain ∧
        segment.shown scope indent newLine = some shown ∧
        Indents indent begins plain shown (segment.Keeps scope begins newLine)
  | .text content, scope, begins, newLine, _, hflag => by
      rw [Segment.shown, Segment.shown, Segment.Keeps]
      exact Or.inr ⟨_, _, rfl, rfl, .ofText content hindent hflag⟩
  | .value name isEscaped, _, _, _, hplain, _ => by
      rw [Segment.Everywhere] at hplain
      exact absurd hplain Bool.noConfusion
  | .sect head children, scope, begins, newLine, hplain, hflag => by
      rw [Segment.Everywhere] at hplain
      rw [Segment.shown, Segment.shown, Segment.Keeps]
      cases hentered : scope.entered? head with
      | none =>
          -- The section is suppressed, so there is no item to be right about.
          refine Or.inl ⟨rfl, rfl, fun items hitems => ?_⟩
          exact absurd hitems (Option.some_ne_none items).symm
      | some items =>
          refine Or.inr ⟨_, _, rfl, rfl, ?_⟩
          simp only [Option.some.injEq, forall_eq']
          refine indents_shownItems (fun item begins newLine hflag => ?_) items begins newLine hflag
          exact Segment.indents_shownAll hindent children _ begins newLine hplain.2 hflag
  | .inverted name children, scope, begins, newLine, hplain, hflag => by
      rw [Segment.Everywhere] at hplain
      rw [Segment.shown, Segment.shown, Segment.Keeps]
      by_cases hlacks : scope.lacks name = true
      · rw [if_pos hlacks, if_pos hlacks]
        refine Or.inr ⟨_, _, rfl, rfl, ?_⟩
        simp only [hlacks, true_imp_iff]
        exact Segment.indents_shownAll hindent children scope begins newLine hplain.2 hflag
      · rw [if_neg hlacks, if_neg hlacks]
        exact Or.inl ⟨rfl, rfl, fun h => absurd h hlacks⟩
  | .block (.mk name children), scope, begins, newLine, hplain, hflag => by
      rw [Segment.Everywhere, Block.Everywhere] at hplain
      rw [Segment.shown, Segment.shown, Segment.Keeps]
      refine Or.inr ⟨_, _, rfl, rfl, ?_⟩
      exact Segment.indents_shownAll hindent children scope begins newLine hplain.2 hflag
  | .reference r, _, _, _, hplain, _ => by
      rw [Segment.Everywhere] at hplain
      exact absurd hplain Bool.noConfusion
  | .parent r parameters, _, _, _, hplain, _ => by
      rw [Segment.Everywhere] at hplain
      exact absurd hplain.1 Bool.noConfusion

/-- So it is with segments in a row. -/
theorem Segment.indents_shownAll (hindent : indent ≠ "") :
    ∀ (segments : List Segment) (scope : Scope σ) (begins newLine : Bool),
      Segment.EverywhereAll (fun segment => segment.isPlain = true) segments →
      (newLine = true → begins = true) →
      Indents indent begins (Segment.shownAll scope "" newLine segments)
        (Segment.shownAll scope indent newLine segments)
        (Segment.KeepsAll scope begins newLine segments)
  | [], scope, begins, newLine, _, _ => by
      rw [Segment.shownAll, Segment.shownAll, Segment.KeepsAll]
      exact .nil
  | segment :: segments, scope, begins, newLine, hplain, hflag => by
      rw [Segment.EverywhereAll] at hplain
      rw [Segment.shownAll, Segment.shownAll, Segment.KeepsAll]
      rcases Segment.indents_shown hindent segment scope begins newLine hplain.1 hflag with
        ⟨hnone, hnone', hkeeps⟩ | ⟨plain, shown, hsome, hsome', hindents⟩
      · -- A suppressed segment leaves both flags as they are.
        simp only [hnone, hnone', hkeeps, true_and]
        exact Segment.indents_shownAll hindent segments scope begins newLine hplain.2 hflag
      · -- Any other segment sets the flag by its own text.
        simp only [hsome, hsome', hindents.endsLine_eq]
        exact hindents.append (Segment.indents_shownAll hindent segments scope _ _ hplain.2
          (beginsAfter_of_endsLine begins))

end

end

section

variable {ρ : Type}

/-- Rendering segments in an indented template indents their text at most as
    much as indenting it afterwards does, and exactly as much if and only if
    there is no indent or the flag of rendering is right at every text. Where
    the flag is wrong, a line has lost its indent. -/
theorem renderSegments_indent_iff (env : Environment σ ρ) {scope : Scope σ}
    {segments : List Segment} (hscope : scope.IsInert)
    (hsegments : Segment.EverywhereAll (fun segment => segment.isPlain = true) segments)
    (indent : String) (newLine : Bool) (state : Host σ × ρ) :
    ∃ plain indented,
      renderSegments env segments ⟨scope, "", newLine⟩ state = (.ok plain, state) ∧
      renderSegments env segments ⟨scope, indent, newLine⟩ state = (.ok indented, state) ∧
      indented.length ≤ (indentLines indent newLine plain).length ∧
      (indented = indentLines indent newLine plain ↔
        indent = "" ∨ Segment.KeepsAll scope newLine newLine segments) := by
  have hreference := Segment.EverywhereAll.mono
    (fun segment => Segment.isReference_of_isPlain) segments hsegments
  -- Nothing is called and no store is asked, so both renderings are texts.
  refine ⟨Segment.shownAll scope "" newLine segments,
    Segment.shownAll scope indent newLine segments, ?_, ?_, ?_⟩
  · rw [renderSegments_eq_shownAll env segments _ hreference hscope]
    rfl
  · rw [renderSegments_eq_shownAll env segments _ hreference hscope]
    rfl
  · -- Without an indent there is nothing to compare.
    by_cases hindent : indent = ""
    · rw [hindent, indentLines_empty]
      exact ⟨Nat.le_refl _, iff_of_true rfl (Or.inl rfl)⟩
    · have hindents := Segment.indents_shownAll hindent segments scope newLine newLine hsegments id
      refine ⟨hindents.length_le, ?_⟩
      rw [hindents.eq_iff, or_iff_right hindent]

theorem renderSegments_indent_iff_of_block :
    ∃ plain indented,
      renderSegments (⟨Store.empty, fun _ _ => .halt .tooDeep⟩ : Environment Unit Unit)
          [.block (.mk "b" [.text "a\n"]), .text "b\n"] ⟨⟨.json .null, []⟩, "", true⟩
          (⟨(), []⟩, ()) =
        (.ok plain, ⟨(), []⟩, ()) ∧
      renderSegments (⟨Store.empty, fun _ _ => .halt .tooDeep⟩ : Environment Unit Unit)
          [.block (.mk "b" [.text "a\n"]), .text "b\n"] ⟨⟨.json .null, []⟩, "  ", true⟩
          (⟨(), []⟩, ()) =
        (.ok indented, ⟨(), []⟩, ()) ∧
      indented.length ≤ (indentLines "  " true plain).length ∧
      (indented = indentLines "  " true plain ↔
        "  " = "" ∨ Segment.KeepsAll (⟨.json .null, []⟩ : Scope Unit) true true
          [.block (.mk "b" [.text "a\n"]), .text "b\n"]) := by
  refine renderSegments_indent_iff _ ?_ ?_ "  " true _
  · intro data hdata
    rw [List.mem_singleton.mp hdata]
    trivial
  · simp only [Segment.EverywhereAll, Segment.Everywhere, Block.Everywhere, Segment.isPlain,
      and_self]

/-- Indentation does not commute with rendering: after a block that shows an empty
    text the line that begins there has lost its indent. -/
theorem not_forall_renderSegments_eq_indentLines :
    ¬ ∀ (env : Environment Unit Unit) (scope : Scope Unit) (segments : List Segment),
      scope.IsInert → Segment.EverywhereAll (fun segment => segment.isPlain = true) segments →
      ∀ (indent : String) (newLine : Bool),
        (∀ c ∈ indent.toList, isBlank c = true ∧ c ≠ '\n') →
        renderSegments env segments ⟨scope, indent, newLine⟩ =
          indentLines indent newLine <$> renderSegments env segments ⟨scope, "", newLine⟩ := by
  intro h
  have heq := h ⟨Store.empty, fun _ _ => .halt .tooDeep⟩ ⟨.json .null, []⟩
    [.block (.mk "b" []), .text "text\n"] ?_ ?_ "  " true ?_
  · -- Rendering gives the text alone, and indenting it gives two blanks before it.
    have htext := congrArg (fun shown => shown.1.toOption) (congrFun heq (⟨(), []⟩, ()))
    exact absurd htext (by decide)
  · intro data hdata
    rw [List.mem_singleton.mp hdata]
    trivial
  · simp only [Segment.EverywhereAll, Segment.Everywhere, Block.Everywhere, Segment.isPlain,
      and_self]
  · intro c hc
    have heq : c = ' ' := List.eq_of_mem_replicate (n := 2) hc
    rw [heq]
    decide

end

end Mustache
