import Mathlib.Logic.Relation
import Mustache.Template

/-!
# Passing Through a Text

The places a reader of templates comes to. A cursor moves in two ways only: it
takes a character, which may bring it to the next line, or it changes its
delimiters, which may trim the current line anew. All reading is made of these
two steps, so what both of them keep holds at every place of every reading.

## Main definitions

* `Cursor.Step`: One step of a reader.
* `Cursor.Reaches`: Any number of steps.

## Theorems

* `Cursor.toText_of_reaches`: The text stays the same.
* `Cursor.reaches_readUntil`, `Cursor.reaches_skipBlanks`: Reading is made of
  steps.
* `Cursor.reaches_tag`: So is reading a tag.
* `Cursor.reaches_segments`: So is reading the segments of a section.
-/

namespace Mustache

open Text

theorem onlyTags?_eq_some {d : Delimiters} {text tags trail : List Char}
    (h : onlyTags? d text = some (tags, trail)) :
    ∃ run, tagRun? d (text.drop d.opening.length) = some (run, trail) ∧
      tags = d.opening ++ run ∧ trail.all isBlank = true := by
  unfold onlyTags? at h
  split at h
  case isFalse => simp only [reduceCtorEq] at h
  case isTrue =>
    split at h
    case h_2 => simp only [reduceCtorEq] at h
    case h_1 run blanks hrun =>
      split at h
      case isFalse => simp only [reduceCtorEq] at h
      case isTrue hblank =>
        rw [Option.some.injEq, Prod.mk.injEq] at h
        rw [← h.2]
        exact ⟨run, hrun, h.1.symm, hblank⟩

namespace Cursor

/-- A cursor with something ahead is on its line already. -/
theorem atLine_of_ne_nil {c : Cursor} (hahead : c.ahead ≠ []) : c.atLine = c := by
  rw [atLine, List.isEmpty_eq_false_iff.mpr hahead, Bool.false_and, if_neg Bool.false_ne_true]

/-- At the end of a line the next one is taken. -/
theorem atLine_of_nil {c : Cursor} (hahead : c.ahead = []) (hbeyond : c.beyond ≠ []) :
    c.atLine = c.nextLine := by
  rw [atLine, hahead, List.isEmpty_eq_false_iff.mpr hbeyond, List.isEmpty_nil, Bool.not_false,
    Bool.and_true, if_pos rfl]

/-- With nothing ahead and nothing beyond the line, there is nothing left to read. -/
theorem next?_of_nil {c : Cursor} (hahead : c.ahead = []) (hbeyond : c.beyond = []) :
    c.next? = none := by
  have hline : c.atLine = c := by
    rw [atLine, hbeyond, List.isEmpty_nil, Bool.not_true, Bool.and_false, if_neg Bool.false_ne_true]
  rw [next?, hline, hahead]

/-- A line that was not taken yet has something to read. -/
theorem ahead_nextLine_ne_nil {c : Cursor} (h : c.beyond ≠ []) : c.nextLine.ahead ≠ [] := by
  unfold nextLine Line.ofText
  dsimp only
  cases honly : onlyTags? c.delimiters (trimStart
      (takeLine c.delimiters false (c.trail.reverse ++ c.behind) c.beyond).1) with
  | some line =>
      -- A trimmed line keeps its tags, which start with a delimiter.
      rcases onlyTags?_eq_some honly with ⟨run, _, htags, _⟩
      dsimp only
      rw [htags]
      exact List.append_ne_nil_of_left_ne_nil c.delimiters.opening_ne_nil _
  | none =>
      -- Any other line is what was taken, which is at least a character.
      cases hbeyond : c.beyond with
      | nil => exact absurd hbeyond h
      | cons ch text =>
          unfold takeLine
          dsimp only
          split
          case isTrue => exact List.cons_ne_nil _ _
          case isFalse => exact List.cons_ne_nil _ _

/-- One step of a reader. -/
inductive Step : Cursor → Cursor → Prop
  /-- A character is read. -/
  | next {c after : Cursor} {ch : Char} (h : c.next? = some (ch, after)) : Step c after
  /-- The delimiters change. -/
  | change (c : Cursor) (new : Delimiters) : Step c (c.changeDelimiters new)

/-- The places that steps of a reader lead to. -/
def Reaches : Cursor → Cursor → Prop :=
  Relation.ReflTransGen Step

theorem Reaches.refl (c : Cursor) : Reaches c c :=
  Relation.ReflTransGen.refl

theorem Reaches.trans {c middle last : Cursor} (h : Reaches c middle) (h' : Reaches middle last) :
    Reaches c last :=
  Relation.ReflTransGen.trans h h'

theorem Reaches.of_step {c after : Cursor} (h : Step c after) : Reaches c after :=
  Relation.ReflTransGen.single h

/-- A change of delimiters moves the end of the line, not the text. -/
theorem toText_changeDelimiters (new : Delimiters) (c : Cursor) :
    (c.changeDelimiters new).toText = c.toText := by
  have htake := takeLine_append new false c.behind (c.ahead ++ c.beyond)
  unfold changeDelimiters
  dsimp only
  by_cases htrail : c.trail.isEmpty = true
  · -- The line is taken anew up to where it ends now, and may be trimmed there.
    have hnil : c.trail = [] := List.isEmpty_iff.mp htrail
    rw [if_pos htrail]
    cases honly : (if c.onTags then
        onlyTags? new (takeLine new false c.behind (c.ahead ++ c.beyond)).1 else none) with
    | none =>
        simp only [toText, behind, hnil, List.append_nil, List.append_assoc] at htake ⊢
        rw [htake]
    | some line =>
        have hline : line.1 ++ line.2 =
            (takeLine new false c.behind (c.ahead ++ c.beyond)).1 := by
          by_cases hon : c.onTags = true
          · rw [if_pos hon] at honly
            exact onlyTags?_append honly
          · rw [if_neg hon] at honly
            simp only [reduceCtorEq] at honly
        rw [← hline] at htake
        simp only [toText, behind, hnil, List.append_nil, List.append_assoc] at htake ⊢
        rw [htake]
  · -- A line that was trimmed already stays as it is.
    rw [if_neg htrail]
    rfl

/-- A step changes the place, not the text. -/
theorem toText_of_step {c after : Cursor} (h : Step c after) : after.toText = c.toText := by
  cases h with
  | next h => exact toText_next? h
  | change new => exact toText_changeDelimiters new c

/-- So the text is the same wherever reading goes. -/
theorem toText_of_reaches {c after : Cursor} (h : Reaches c after) : after.toText = c.toText := by
  induction h with
  | refl => rfl
  | tail _ hstep ih => rw [toText_of_step hstep, ih]

@[simp] theorem toText_ofText (delimiters : Delimiters) (text : List Char) :
    (ofText delimiters text).toText = text := by
  simp only [ofText, toText, behind, List.reverse_nil, List.append_nil, List.nil_append]

/-- Reading on is made of steps, one for each character. -/
theorem reaches_readFrom (word buffer : List Char) (c : Cursor) :
    Reaches c (readFrom word buffer c).rest := by
  fun_induction readFrom word buffer c with
  | case1 buffer c h => exact Reaches.refl c
  | case2 buffer c ch after h hword => exact Reaches.of_step (Step.next h)
  | case3 buffer c ch after h hword ih => exact (Reaches.of_step (Step.next h)).trans ih

/-- So is reading up to a word. -/
theorem reaches_readUntil (word : List Char) (c : Cursor) : Reaches c (c.readUntil word).rest :=
  reaches_readFrom word [] c

/-- So is passing over blanks. -/
theorem reaches_skipBlanks (c : Cursor) : Reaches c c.skipBlanks := by
  fun_induction skipBlanks c with
  | case1 c h => exact Reaches.refl c
  | case2 c ch after h hblank ih => exact (Reaches.of_step (Step.next h)).trans ih
  | case3 c ch after h hblank => exact Reaches.refl c

/-- So is the content of a tag. -/
theorem reaches_content {c after : Cursor} {mark content : List Char}
    (h : c.content mark = .ok (content, after)) : Reaches c after := by
  unfold Cursor.content at h
  dsimp only at h
  split at h
  case isFalse => simp only [reduceCtorEq] at h
  case isTrue =>
    split at h
    case h_1 => simp only [reduceCtorEq] at h
    case h_2 =>
      simp only [Except.ok.injEq, Prod.mk.injEq] at h
      rw [← h.2]
      exact reaches_readUntil _ c

/-- What is made of it makes no difference. -/
theorem reaches_contentTag {c after : Cursor} {mark : List Char} {make : List Char → Cursor → Tag}
    {tag : Tag} (h : c.contentTag mark make = .ok (tag, after)) : Reaches c after := by
  unfold contentTag at h
  split at h
  case h_1 => simp only [reduceCtorEq] at h
  case h_2 content after' hcontent =>
    simp only [Except.ok.injEq, Prod.mk.injEq] at h
    rw [← h.2]
    exact reaches_content hcontent

/-- A comment is passed over by steps as well. -/
theorem reaches_commentTag {c after : Cursor} {tag : Tag} (h : c.commentTag = .ok (tag, after)) :
    Reaches c after := by
  unfold commentTag at h
  dsimp only at h
  split at h
  case isFalse => simp only [reduceCtorEq] at h
  case isTrue =>
    simp only [Except.ok.injEq, Prod.mk.injEq] at h
    rw [← h.2]
    exact reaches_readUntil _ c

/-- After a delimiter tag the last step is the change. -/
theorem reaches_delimitersTag {c after : Cursor} {tag : Tag}
    (h : c.delimitersTag = .ok (tag, after)) : Reaches c after := by
  unfold delimitersTag at h
  split at h
  case h_1 => simp only [reduceCtorEq] at h
  case h_2 body after' hbody =>
    split at h
    case h_1 => simp only [reduceCtorEq] at h
    case h_2 new hnew =>
      simp only [Except.ok.injEq, Prod.mk.injEq] at h
      rw [← h.2]
      exact (reaches_content hbody).trans (Reaches.of_step (Step.change after' new))

/-- Reading a tag is made of steps. -/
theorem reaches_tag {c after : Cursor} {tag : Tag} (h : c.tag = .ok (tag, after)) :
    Reaches c after := by
  have hskip := reaches_skipBlanks c
  unfold Cursor.tag at h
  dsimp only at h
  split at h
  case h_1 => simp only [reduceCtorEq] at h
  case h_2 sigil inner hnext =>
    have hinner := hskip.trans (Reaches.of_step (Step.next hnext))
    split at h
    case h_2 => exact hinner.trans (reaches_commentTag h)
    case h_3 => exact hinner.trans (reaches_delimitersTag h)
    -- Some tags give the sigil back, as it is part of their content.
    all_goals
      first
      | exact hinner.trans (reaches_contentTag h)
      | exact hskip.trans (reaches_contentTag h)

/-- Reading the segments of a section is made of steps. -/
theorem reaches_segments {source : List Char} {options : Options} (enclosing : Option String)
    (c : Cursor) :
    ∀ content, c.segments source options enclosing = .ok content → Reaches c content.rest := by
  fun_induction segments source options enclosing c with
  | case2 c reading found name after htag =>
      intro content h
      rw [← Except.ok.inj h]
      exact (reaches_readUntil _ c).trans (reaches_tag htag)
  | case5 enclosing c reading found tag after htag hafter more hmore ih =>
      intro content h
      rw [← Except.ok.inj h]
      exact ((reaches_readUntil _ c).trans (reaches_tag htag)).trans (ih more hmore)
  | case9 enclosing c reading found kind name after htag hafter inner hinner hrest segment
      hsegment more hmore ih ihrest =>
      intro content h
      rw [← Except.ok.inj h]
      exact (((reaches_readUntil _ c).trans (reaches_tag htag)).trans (ih inner hinner)).trans
        (ihrest more hmore)
  | case10 c reading found =>
      intro content h
      rw [← Except.ok.inj h]
      exact reaches_readUntil _ c
  | _ =>
      intro content h
      cases h

end Cursor

end Mustache
