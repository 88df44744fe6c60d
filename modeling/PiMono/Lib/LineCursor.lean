import Mathlib.Data.List.Basic
import Mathlib.Tactic.Common

/-!
# A cursor in a buffer of lines

A buffer is a list of lines with a cursor in one of them; the text it stands for has a
separator between two lines. `before` and `after` are the two halves of the text at the
cursor, and every operation is stated by what it does to them.
-/

namespace PiMono

/-- A buffer cut at the cursor: the lines above, the halves of the cursor's line, the lines
below. -/
structure LineCursor (α : Type) where
  above : List (List α)
  left : List α
  right : List α
  below : List (List α)
  deriving DecidableEq

namespace LineCursor

variable {α : Type}

/-- The lines of the buffer. -/
def lines (c : LineCursor α) : List (List α) := c.above ++ (c.left ++ c.right) :: c.below

variable (sep : α)

/-- The text in front of the cursor. -/
def before (c : LineCursor α) : List α := c.above.flatMap (· ++ [sep]) ++ c.left

/-- The text behind the cursor. -/
def after (c : LineCursor α) : List α := c.right ++ c.below.flatMap (sep :: ·)

theorem intercalate_cons (line : List α) (lines : List (List α)) :
    [sep].intercalate (line :: lines) = line ++ lines.flatMap (sep :: ·) := by
  induction lines generalizing line with
  | nil => simp
  | cons next lines ih =>
    rw [List.intercalate_cons_cons, ih, List.flatMap_cons, List.append_assoc]
    rfl

theorem intercalate_append_cons (above : List (List α)) (line : List α)
    (below : List (List α)) :
    [sep].intercalate (above ++ line :: below)
      = above.flatMap (· ++ [sep]) ++ (line ++ below.flatMap (sep :: ·)) := by
  induction above with
  | nil => exact intercalate_cons sep line below
  | cons first above ih =>
    obtain ⟨next, rest, hrest⟩ := List.exists_cons_of_ne_nil
      (List.append_ne_nil_of_right_ne_nil above (List.cons_ne_nil line below))
    rw [List.cons_append, hrest, List.intercalate_cons_cons, ← hrest, ih, List.flatMap_cons,
      ← List.append_assoc]

/-- The text of a buffer is what its halves make. -/
theorem intercalate_lines (c : LineCursor α) :
    [sep].intercalate c.lines = c.before sep ++ c.after sep := by
  rw [lines, intercalate_append_cons, before, after, List.append_assoc, List.append_assoc]

variable [DecidableEq α]

/-- A text is inserted, and the cursor stands behind it. -/
def insert (c : LineCursor α) (text : List α) : LineCursor α :=
  match text.splitOn sep with
  | [] | [_] => { c with left := c.left ++ text }
  | first :: second :: rest =>
    { above := c.above ++ (c.left ++ first) :: (second :: rest).dropLast
      left := (second :: rest).getLast (List.cons_ne_nil second rest)
      right := c.right
      below := c.below }

@[simp] theorem after_insert (c : LineCursor α) (text : List α) :
    (c.insert sep text).after sep = c.after sep := by
  unfold insert
  split <;> rfl

/-- **Insertion.** -/
@[simp] theorem before_insert (c : LineCursor α) (text : List α) :
    (c.insert sep text).before sep = c.before sep ++ text := by
  cases hsplit : text.splitOn sep with
  | nil => exact absurd hsplit (List.splitOn_ne_nil sep text)
  | cons first rest =>
    cases rest with
    | nil =>
      simp only [insert, hsplit, before]
      exact (List.append_assoc _ _ _).symm
    | cons second rest =>
      have htext : [sep].intercalate (text.splitOn sep) = text := List.intercalate_splitOn sep
      have hlast := List.dropLast_append_getLast (List.cons_ne_nil second rest)
      rw [hsplit, ← hlast, ← List.cons_append, intercalate_append_cons] at htext
      simp only [insert, hsplit, before]
      rw [List.flatMap_append, List.flatMap_cons, ← htext]
      simp only [List.flatMap_cons, List.flatMap_nil, List.append_nil, List.append_assoc]

end LineCursor

end PiMono
