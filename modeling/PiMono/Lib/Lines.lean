import Mathlib.Data.List.Basic

/-!
# The lines of a text

A text is cut at a separator. `closedLines` are the pieces that a separator ends,
`lastLine` is what stands behind the last of them. Writing behind a text writes
behind its last line: `splitOn_append` and `splitOn_append_line`.
-/

namespace PiMono

section Lines

variable {α : Type} [DecidableEq α]

/-- What stands behind the last separator. -/
def lastLine (sep : α) (xs : List α) : List α :=
  (xs.splitOn sep).getLast (List.splitOn_ne_nil sep xs)

/-- The pieces that end with a separator. -/
def closedLines (sep : α) (xs : List α) : List (List α) := (xs.splitOn sep).dropLast

theorem splitOn_eq (sep : α) (xs : List α) :
    xs.splitOn sep = closedLines sep xs ++ [lastLine sep xs] :=
  (List.dropLast_append_getLast _).symm

variable {sep : α}

/-- What is written behind a text, without a separator, is written behind its last
line. -/
theorem splitOn_append (xs : List α) {s : List α} (hs : sep ∉ s) :
    (xs ++ s).splitOn sep = closedLines sep xs ++ [lastLine sep xs ++ s] := by
  by_cases hmem : sep ∈ xs
  · obtain ⟨as, bs, hrev, hnot⟩ := List.eq_append_cons_of_mem (List.mem_reverse.mpr hmem)
    obtain rfl : xs = bs.reverse ++ sep :: as.reverse := by
      rw [← List.reverse_reverse xs, hrev]
      simp
    have hlast : sep ∉ as.reverse := by simpa using hnot
    have hsplit : (bs.reverse ++ sep :: as.reverse).splitOn sep
        = bs.reverse.splitOn sep ++ [as.reverse] := by
      rw [List.splitOn_append_cons_self, List.splitOn_eq_singleton hlast]
    have hboth : sep ∉ as.reverse ++ s := by simpa using ⟨hnot, hs⟩
    simp only [closedLines, lastLine, hsplit]
    rw [List.append_assoc, List.cons_append, List.splitOn_append_cons_self,
      List.splitOn_eq_singleton hboth, List.dropLast_concat, List.getLast_concat]
  · have hboth : sep ∉ xs ++ s := by simpa using ⟨hmem, hs⟩
    simp only [closedLines, lastLine, List.splitOn_eq_singleton hmem]
    rw [List.splitOn_eq_singleton hboth]
    rfl

/-- Writing a line behind a text, and more behind that. -/
theorem splitOn_append_line (xs : List α) {s : List α} (hs : sep ∉ s) (ys : List α) :
    (xs ++ (s ++ sep :: ys)).splitOn sep
      = closedLines sep xs ++ (lastLine sep xs ++ s) :: ys.splitOn sep := by
  rw [← List.append_assoc, List.splitOn_append_cons_self, splitOn_append xs hs, List.append_assoc]
  rfl

/-- A text that ends with a separator has an empty last line. -/
theorem lastLine_concat (xs : List α) : lastLine sep (xs ++ [sep]) = [] := by
  have hsplit : (xs ++ [sep]).splitOn sep = xs.splitOn sep ++ [[]] :=
    List.splitOn_append_cons_self xs []
  simp only [lastLine, hsplit]
  exact List.getLast_concat

@[simp] theorem lastLine_nil : lastLine sep ([] : List α) = [] := rfl

/-- Without a separator behind a text its last line grows. -/
theorem lastLine_append (xs : List α) {s : List α} (hs : sep ∉ s) :
    lastLine sep (xs ++ s) = lastLine sep xs ++ s := by
  have hsplit := splitOn_append xs hs
  simp only [lastLine, hsplit]
  exact List.getLast_concat

/-- A separator starts the last line afresh. -/
theorem lastLine_append_cons (xs ys : List α) :
    lastLine sep (xs ++ sep :: ys) = lastLine sep ys := by
  have hsplit : (xs ++ sep :: ys).splitOn sep = xs.splitOn sep ++ ys.splitOn sep :=
    List.splitOn_append_cons_self xs ys
  simp only [lastLine, hsplit]
  exact List.getLast_append_of_ne_nil _ (List.splitOn_ne_nil sep ys)

theorem lastLine_append_of_mem (xs : List α) {ys : List α} (h : sep ∈ ys) :
    lastLine sep (xs ++ ys) = lastLine sep ys := by
  obtain ⟨as, bs, rfl⟩ := List.mem_iff_append.mp h
  rw [← List.append_assoc, lastLine_append_cons, lastLine_append_cons]

/-- The last line is empty when nothing stands behind the last separator. -/
theorem lastLine_eq_nil {xs : List α} :
    lastLine sep xs = [] ↔ xs = [] ∨ xs.getLast? = some sep := by
  constructor
  · intro h
    rcases List.eq_nil_or_concat xs with rfl | ⟨ys, x, rfl⟩
    · exact Or.inl rfl
    · by_cases hx : x = sep
      · exact Or.inr (by simp [hx])
      · rw [List.concat_eq_append, lastLine_append ys (by simp [Ne.symm hx])] at h
        simp at h
  · rintro (rfl | h)
    · rfl
    · obtain ⟨ys, rfl⟩ := List.getLast?_eq_some_iff.mp h
      exact lastLine_concat ys

/-- There is a piece more than separators. -/
theorem length_splitOn : ∀ xs : List α, (xs.splitOn sep).length = xs.count sep + 1
  | [] => rfl
  | x :: xs => by
    have ih := length_splitOn xs
    rw [List.splitOn_cons_eq_if_modifyHead]
    by_cases hx : x = sep
    · simp [hx, ih]
    · simp [hx, ih]

theorem notMem_of_mem_splitOn : ∀ {xs piece : List α}, piece ∈ xs.splitOn sep → sep ∉ piece
  | [], piece, h => by
    obtain rfl := List.mem_singleton.mp h
    exact List.not_mem_nil
  | x :: xs, piece, h => by
    rw [List.splitOn_cons_eq_if_modifyHead] at h
    by_cases hx : x = sep
    · rw [if_pos (by simpa using hx)] at h
      rcases List.mem_cons.mp h with rfl | h
      · exact List.not_mem_nil
      · exact notMem_of_mem_splitOn h
    · rw [if_neg (by simpa using hx)] at h
      cases hpieces : xs.splitOn sep with
      | nil => exact absurd hpieces (List.splitOn_ne_nil sep xs)
      | cons first pieces =>
        rw [hpieces, List.modifyHead_cons] at h
        rcases List.mem_cons.mp h with rfl | h
        · have hfirst := notMem_of_mem_splitOn (hpieces ▸ List.mem_cons_self)
          exact fun hmem => (List.mem_cons.mp hmem).elim (fun heq => hx heq.symm) hfirst
        · exact notMem_of_mem_splitOn (hpieces ▸ List.mem_cons_of_mem _ h)

end Lines

end PiMono
