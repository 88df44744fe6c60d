import Mathlib.Data.List.Basic
import Mathlib.Data.List.Infix
import Mathlib.Tactic.Common

/-!
# Where a text occurs in another

`occurrences` are all positions at which a pattern occurs, overlapping ones included;
`indexOf?` is the first of them. `splitBy` cuts a text at the occurrences that a scan
from the left finds without overlap: it cuts more than once exactly if two occurrences do
not overlap (`two_lt_length_splitBy`).
-/

namespace PiMono

section Occurrences

variable {α : Type} [DecidableEq α]

/-- The positions at which `pat` occurs in `s`. -/
def occurrences (s pat : List α) : List Nat :=
  (List.range (s.length + 1)).filter fun i => pat.isPrefixOf (s.drop i)

/-- `s.indexOf(pat)`; `none` stands for `-1`. -/
def indexOf? (s pat : List α) : Option Nat :=
  (List.range (s.length + 1)).find? fun i => pat.isPrefixOf (s.drop i)

theorem indexOf?_eq (s pat : List α) : indexOf? s pat = (occurrences s pat).head? := by
  rw [indexOf?, occurrences, List.head?_filter]

theorem mem_occurrences {s pat : List α} {i : Nat} :
    i ∈ occurrences s pat ↔ i ≤ s.length ∧ pat <+: s.drop i := by
  rw [occurrences, List.mem_filter, List.mem_range, List.isPrefixOf_iff_prefix, Nat.lt_succ_iff]

/-- An occurrence is inside the text. -/
theorem le_of_mem_occurrences {s pat : List α} {i : Nat} (h : i ∈ occurrences s pat) :
    i + pat.length ≤ s.length := by
  obtain ⟨hi, hstarts⟩ := mem_occurrences.mp h
  have hle := hstarts.length_le
  rw [List.length_drop] at hle
  omega

theorem mem_occurrences_append (a pat b : List α) :
    a.length ∈ occurrences (a ++ pat ++ b) pat := by
  refine mem_occurrences.mpr ⟨by simp, ?_⟩
  rw [List.append_assoc, List.drop_left]
  exact List.prefix_append pat b

theorem infix_iff_occurrences {s pat : List α} : pat <:+: s ↔ occurrences s pat ≠ [] := by
  constructor
  · rintro ⟨a, b, rfl⟩ hnil
    have hmem := mem_occurrences_append a pat b
    rw [hnil] at hmem
    cases hmem
  · intro hne
    obtain ⟨i, hi⟩ := List.exists_mem_of_ne_nil _ hne
    exact (mem_occurrences.mp hi).2.isInfix.trans (List.drop_suffix i s).isInfix

theorem mem_of_indexOf? {s pat : List α} {i : Nat} (h : indexOf? s pat = some i) :
    i ∈ occurrences s pat := by
  rw [indexOf?_eq] at h
  exact List.mem_of_mem_head? h

theorem indexOf?_isSome {s pat : List α} : (indexOf? s pat).isSome = true ↔ pat <:+: s := by
  rw [indexOf?_eq, infix_iff_occurrences]
  cases occurrences s pat <;> simp

theorem indexOf?_eq_none {s pat : List α} : indexOf? s pat = none ↔ ¬ pat <:+: s := by
  rw [← indexOf?_isSome]
  cases indexOf? s pat <;> simp

/-- A pattern that occurs once is found where it occurs. -/
theorem indexOf?_of_singleton {s pat : List α} {i : Nat} (h : occurrences s pat = [i]) :
    indexOf? s pat = some i := by
  rw [indexOf?_eq, h]
  rfl

/-- The first position, and the others by one further to the right. -/
theorem occurrences_cons (c : α) (s pat : List α) :
    occurrences (c :: s) pat
      = (if pat.isPrefixOf (c :: s) then [0] else []) ++ (occurrences s pat).map (· + 1) := by
  rw [occurrences, List.length_cons, List.range_succ_eq_map, List.filter_cons, List.filter_map]
  have hshift : ((fun i => pat.isPrefixOf ((c :: s).drop i)) ∘ Nat.succ)
      = fun i => pat.isPrefixOf (s.drop i) := rfl
  rw [hshift]
  by_cases hstarts : pat.isPrefixOf (c :: s) = true
  · rw [if_pos hstarts]
    simp [hstarts, occurrences]
  · rw [if_neg hstarts]
    simp [hstarts, occurrences]

/-- The positions of a pattern behind the first units. -/
theorem mem_occurrences_drop {s pat : List α} {n i : Nat} (h : n ≤ s.length) :
    i ∈ occurrences (s.drop n) pat ↔ n + i ∈ occurrences s pat := by
  rw [mem_occurrences, mem_occurrences, List.length_drop, List.drop_drop]
  exact and_congr_left fun _ => by omega

theorem occurrences_nil_left {pat : List α} (hpat : pat ≠ []) : occurrences [] pat = [] := by
  rw [List.eq_nil_iff_forall_not_mem]
  intro i hi
  have hle := le_of_mem_occurrences hi
  have hpos := List.length_pos_iff.mpr hpat
  rw [List.length_nil] at hle
  omega

/-- The pattern occurs at two positions without overlap. -/
def OccursTwice (s pat : List α) : Prop :=
  ∃ i ∈ occurrences s pat, ∃ j ∈ occurrences s pat, i + pat.length ≤ j

instance (s pat : List α) : Decidable (OccursTwice s pat) :=
  inferInstanceAs (Decidable (∃ i ∈ occurrences s pat, ∃ j ∈ occurrences s pat, _))

/-! ## Cutting at a pattern -/

/-- The loop of `splitBy`: `skip` units of a separator are still to come, `piece` is the
piece being read. -/
def splitFrom (sep : List α) : Nat → List α → List α → List (List α)
  | _, piece, [] => [piece]
  | skip + 1, piece, _ :: cs => splitFrom sep skip piece cs
  | 0, piece, c :: cs =>
    if sep.isPrefixOf (c :: cs) then piece :: splitFrom sep (sep.length - 1) [] cs
    else splitFrom sep 0 (piece ++ [c]) cs

/-- `s.split(sep)` for a separator that is not empty. -/
def splitBy (s sep : List α) : List (List α) := splitFrom sep 0 [] s

/-- Neither the piece that is being read nor what is skipped matters for the number of pieces. -/
theorem length_splitFrom (sep : List α) : ∀ (s : List α) (skip : Nat) (piece : List α),
    (splitFrom sep skip piece s).length = (splitBy (s.drop skip) sep).length
  | [], skip, piece => by
    cases skip <;> rfl
  | _ :: cs, skip + 1, piece => length_splitFrom sep cs skip piece
  | c :: cs, 0, piece => by
    rw [splitBy, List.drop_zero, splitFrom, splitFrom]
    split
    · rfl
    · rw [length_splitFrom sep cs 0, length_splitFrom sep cs 0]

theorem length_splitBy_cons (sep : List α) (c : α) (cs : List α) :
    (splitBy (c :: cs) sep).length =
      if sep.isPrefixOf (c :: cs) then (splitBy (cs.drop (sep.length - 1)) sep).length + 1
      else (splitBy cs sep).length := by
  rw [splitBy, splitFrom]
  split
  · rw [List.length_cons, length_splitFrom]
  · rw [length_splitFrom, List.drop_zero]

theorem length_splitBy_pos (sep : List α) : ∀ s : List α, 0 < (splitBy s sep).length
  | [] => Nat.one_pos
  | c :: cs => by
    rw [length_splitBy_cons]
    split
    · exact Nat.succ_pos _
    · exact length_splitBy_pos sep cs

/-- A scan finds a pattern that is there. -/
theorem one_lt_length_splitBy {sep : List α} (hsep : sep ≠ []) : ∀ s : List α,
    1 < (splitBy s sep).length ↔ ∃ i, i ∈ occurrences s sep
  | [] => by
    rw [occurrences_nil_left hsep]
    simp [splitBy, splitFrom]
  | c :: cs => by
    have ih := one_lt_length_splitBy hsep cs
    rw [length_splitBy_cons, occurrences_cons]
    by_cases hstarts : sep.isPrefixOf (c :: cs) = true
    · rw [if_pos hstarts, if_pos hstarts]
      exact iff_of_true (Nat.succ_lt_succ (length_splitBy_pos sep _))
        ⟨0, List.mem_append_left _ List.mem_cons_self⟩
    · rw [if_neg hstarts, if_neg hstarts, ih, List.nil_append]
      simp

/-- A scan finds a pattern twice if two of its occurrences do not overlap. -/
theorem two_lt_length_splitBy {sep : List α} (hsep : sep ≠ []) : ∀ s : List α,
    2 < (splitBy s sep).length ↔ OccursTwice s sep
  | [] => by
    rw [OccursTwice, occurrences_nil_left hsep]
    simp [splitBy, splitFrom]
  | c :: cs => by
    have ih := two_lt_length_splitBy hsep cs
    rw [length_splitBy_cons]
    by_cases hstarts : sep.isPrefixOf (c :: cs) = true
    · have hzero : 0 ∈ occurrences (c :: cs) sep :=
        mem_occurrences.mpr ⟨Nat.zero_le _, List.isPrefixOf_iff_prefix.mp hstarts⟩
      have hle := le_of_mem_occurrences hzero
      have hpos := List.length_pos_iff.mpr hsep
      have hdrop : cs.drop (sep.length - 1) = (c :: cs).drop sep.length := by
        rw [← List.drop_succ_cons (a := c), Nat.sub_add_cancel hpos]
      rw [if_pos hstarts, Nat.succ_lt_succ_iff, one_lt_length_splitBy hsep, hdrop]
      constructor
      · rintro ⟨i, hi⟩
        exact ⟨0, hzero, sep.length + i, (mem_occurrences_drop (by omega)).mp hi, by omega⟩
      · rintro ⟨i, -, j, hj, hij⟩
        refine ⟨j - sep.length, (mem_occurrences_drop (by omega)).mpr ?_⟩
        rwa [show sep.length + (j - sep.length) = j by omega]
    · rw [if_neg hstarts, ih, OccursTwice, OccursTwice, occurrences_cons, if_neg hstarts,
        List.nil_append]
      simp [Nat.add_right_comm]

end Occurrences

end PiMono
