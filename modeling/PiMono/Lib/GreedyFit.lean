import Mathlib.Data.List.Infix

/-!
# Choices under a budget

Two ways to choose from a list, from the front on: `greedyFit` passes over what no
longer fits, `runFit` stops there. What fits is any predicate of the chosen list.
-/

namespace PiMono

universe u

variable {α : Type u} (fits : List α → Prop) [DecidablePred fits]

/-- Whatever still fits behind the chosen ones. -/
def greedyFit : List α → List α → List α
  | chosen, [] => chosen
  | chosen, a :: rest =>
    if fits (chosen ++ [a]) then greedyFit (chosen ++ [a]) rest else greedyFit chosen rest

/-- The ones in front of the first that does not fit. -/
def runFit : List α → List α → List α
  | chosen, [] => chosen
  | chosen, a :: rest => if fits (chosen ++ [a]) then runFit (chosen ++ [a]) rest else chosen

variable {fits}

theorem greedyFit_fits : ∀ {rest chosen : List α}, fits chosen → fits (greedyFit fits chosen rest)
  | [], _, h => h
  | a :: rest, chosen, h => by
    rw [greedyFit]
    split
    · exact greedyFit_fits ‹_›
    · exact greedyFit_fits h

theorem runFit_fits : ∀ {rest chosen : List α}, fits chosen → fits (runFit fits chosen rest)
  | [], _, h => h
  | a :: rest, chosen, h => by
    rw [runFit]
    split
    · exact runFit_fits ‹_›
    · exact h

/-- No place of the list is chosen twice, and the order stays. -/
theorem greedyFit_sublist : ∀ {rest chosen : List α},
    (greedyFit fits chosen rest).Sublist (chosen ++ rest)
  | [], chosen => by rw [greedyFit, List.append_nil]
  | a :: rest, chosen => by
    rw [greedyFit]
    split
    · have h : (greedyFit fits (chosen ++ [a]) rest).Sublist (chosen ++ [a] ++ rest) :=
        greedyFit_sublist
      rwa [List.append_assoc] at h
    · exact greedyFit_sublist.trans ((List.sublist_cons_self a rest).append_left chosen)

theorem runFit_prefix : ∀ {rest chosen : List α}, runFit fits chosen rest <+: chosen ++ rest
  | [], chosen => by rw [runFit, List.append_nil]
  | a :: rest, chosen => by
    rw [runFit]
    split
    · have h : runFit fits (chosen ++ [a]) rest <+: chosen ++ [a] ++ rest := runFit_prefix
      rwa [List.append_assoc] at h
    · exact List.prefix_append chosen (a :: rest)

/-- What was chosen stays chosen. -/
theorem chosen_prefix_runFit : ∀ (rest : List α) {chosen : List α},
    chosen <+: runFit fits chosen rest
  | [], _ => List.prefix_rfl
  | a :: rest, chosen => by
    rw [runFit]
    split
    · exact (List.prefix_append chosen [a]).trans (chosen_prefix_runFit rest)
    · exact List.prefix_rfl

/-- Where what fits is closed under prefixes, the run is the longest prefix that
fits. -/
theorem prefix_runFit (hclosed : ∀ {short long : List α}, short <+: long → fits long → fits short) :
    ∀ {rest chosen other : List α}, chosen <+: other → other <+: chosen ++ rest → fits other →
      other <+: runFit fits chosen rest
  | [], chosen, other, _, hother, _ => by
    rw [runFit]
    rwa [List.append_nil] at hother
  | a :: rest, chosen, other, hchosen, hother, hfits => by
    obtain ⟨tail, rfl⟩ := hchosen
    have htail : tail <+: a :: rest := (List.prefix_append_right_inj chosen).mp hother
    cases tail with
    | nil =>
      rw [List.append_nil, runFit]
      split
      · exact (List.prefix_append chosen [a]).trans
          (chosen_prefix_runFit rest)
      · exact List.prefix_rfl
    | cons b tail =>
      obtain ⟨rfl, hrest⟩ := List.cons_prefix_cons.mp htail
      have hlonger : chosen ++ [b] <+: chosen ++ b :: tail :=
        (List.prefix_append_right_inj chosen).mpr (List.cons_prefix_cons.mpr ⟨rfl, List.nil_prefix⟩)
      rw [runFit, if_pos (hclosed hlonger hfits)]
      refine prefix_runFit hclosed hlonger ?_ hfits
      rw [List.append_assoc]
      exact (List.prefix_append_right_inj chosen).mpr (List.cons_prefix_cons.mpr ⟨rfl, hrest⟩)

end PiMono
