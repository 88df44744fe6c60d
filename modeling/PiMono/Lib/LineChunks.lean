import PiMono.Lib.Lines

/-!
# Lines across chunks

A text that comes in chunks is cut into lines chunk by chunk: the last piece of a chunk
waits for what follows (`splitOn_behind`), and the first line to be found is found by
looking at the pieces one after the other (`findInPieces_spec`).
-/

namespace PiMono

variable {α β : Type} [DecidableEq α] {sep : α}

/-- The lines of a text, and those that begin with its last one. -/
theorem splitOn_behind (xs ys : List α) :
    (xs ++ ys).splitOn sep = closedLines sep xs ++ (lastLine sep xs ++ ys).splitOn sep := by
  by_cases hmem : sep ∈ xs
  · obtain ⟨as, bs, hrev, hnot⟩ := List.eq_append_cons_of_mem (List.mem_reverse.mpr hmem)
    obtain rfl : xs = bs.reverse ++ sep :: as.reverse := by
      rw [← List.reverse_reverse xs, hrev]
      simp
    have hsplit : (bs.reverse ++ sep :: as.reverse).splitOn sep
        = bs.reverse.splitOn sep ++ [as.reverse] := by
      have hlast : sep ∉ as.reverse := by simpa using hnot
      rw [List.splitOn_append_cons_self, List.splitOn_eq_singleton hlast]
    simp only [closedLines, lastLine, hsplit]
    rw [List.append_assoc, List.cons_append, List.splitOn_append_cons_self, List.dropLast_concat,
      List.getLast_concat]
  · simp only [closedLines, lastLine, List.splitOn_eq_singleton hmem]
    rfl

theorem notMem_lastLine (xs : List α) : sep ∉ lastLine sep xs :=
  notMem_of_mem_splitOn (List.getLast_mem (List.splitOn_ne_nil sep xs))

/-- Looks at the lines that the pieces of a chunk end; `pending` is the line that waits. What
is found, or the line that waits behind the chunk. -/
def findInPieces (find : List α → Option β) : List α → List (List α) → β ⊕ List α
  | pending, [] => .inr pending
  | pending, [last] => .inr (pending ++ last)
  | pending, piece :: next :: pieces =>
    match find (pending ++ piece) with
    | some found => .inl found
    | none => findInPieces find [] (next :: pieces)

/-- The pieces of a chunk, looked at in front of the rest of the text. -/
theorem findInPieces_spec (find : List α → Option β) : ∀ (chunk : List α) {pending : List α},
    sep ∉ pending → ∀ rest : List α,
      match findInPieces find pending (chunk.splitOn sep) with
      | .inl found => ((pending ++ (chunk ++ rest)).splitOn sep).findSome? find = some found
      | .inr pending' => sep ∉ pending' ∧
        ((pending ++ (chunk ++ rest)).splitOn sep).findSome? find
          = ((pending' ++ rest).splitOn sep).findSome? find := by
  intro chunk
  generalize hpieces : chunk.splitOn sep = pieces
  induction pieces generalizing chunk with
  | nil => exact absurd hpieces (List.splitOn_ne_nil sep chunk)
  | cons piece pieces ih =>
    intro pending hpending rest
    have hpiece : sep ∉ piece := notMem_of_mem_splitOn (hpieces ▸ List.mem_cons_self)
    cases pieces with
    | nil =>
      -- a chunk without an end of a line
      have hchunk : chunk = piece := by
        have hjoin : [sep].intercalate (chunk.splitOn sep) = chunk := List.intercalate_splitOn sep
        rw [hpieces] at hjoin
        simpa using hjoin.symm
      subst hchunk
      refine ⟨by simp [hpending, hpiece], ?_⟩
      rw [List.append_assoc]
    | cons next pieces =>
      obtain ⟨chunk', rfl, hchunk'⟩ : ∃ chunk', chunk = piece ++ sep :: chunk' ∧
          chunk'.splitOn sep = next :: pieces := by
        refine ⟨[sep].intercalate (next :: pieces), ?_, ?_⟩
        · have hjoin : [sep].intercalate (chunk.splitOn sep) = chunk := List.intercalate_splitOn sep
          rw [hpieces] at hjoin
          simpa using hjoin.symm
        · refine List.splitOn_intercalate sep (fun line hline => ?_) (List.cons_ne_nil _ _)
          exact notMem_of_mem_splitOn (hpieces ▸ List.mem_cons_of_mem _ hline)
      have hline : ((pending ++ ((piece ++ sep :: chunk') ++ rest)).splitOn sep)
          = (pending ++ piece) :: (chunk' ++ rest).splitOn sep := by
        have hfree : sep ∉ pending ++ piece := by simp [hpending, hpiece]
        rw [List.append_assoc, List.cons_append, ← List.append_assoc,
          List.splitOn_append_cons_self_of_not_mem hfree]
      rw [findInPieces, hline, List.findSome?_cons]
      cases hfind : find (pending ++ piece) with
      | some found => rfl
      | none => exact ih chunk' hchunk' List.not_mem_nil rest

end PiMono
