import Mathlib.Data.List.Count
import PiMono.Lib.JsMap

/-!
# Shared and exclusive leases

Keys are leased to owners, each with a token of its own. A map counts the owners of a key,
and another one has the token of the owner that is to be alone. `Counted` says that both
maps agree with the owners; it holds on when an owner comes, goes, or when all owners of a
key lose their leases.
-/

namespace PiMono.SharedLeases

variable {κ τ : Type} [DecidableEq κ]

/-- How many owners a key has. -/
def countOf (counts : JsMap κ Nat) (k : κ) : Nat := (counts.get? k).getD 0

/-- The count without one owner. -/
def dropCount (counts : JsMap κ Nat) (k : κ) : JsMap κ Nat :=
  if countOf counts k ≤ 1 then counts.delete k else counts.set k (countOf counts k - 1)

/-- The mark without that of a token. -/
def dropMark [DecidableEq τ] (exclusives : JsMap κ τ) (k : κ) (t : τ) : JsMap κ τ :=
  if exclusives.get? k = some t then exclusives.delete k else exclusives

/-- The owners are counted, and an exclusive one is marked and alone. -/
structure Counted (exclusive : τ → Bool) (counts : JsMap κ Nat) (exclusives : JsMap κ τ)
    (owners : List (κ × τ)) : Prop where
  count : ∀ k, countOf counts k = owners.countP (·.1 = k)
  positive : ∀ k, counts.get? k ≠ some 0
  marked : ∀ k t, (k, t) ∈ owners → exclusive t = true → exclusives.get? k = some t
  alone : ∀ k t, exclusives.get? k = some t →
    countOf counts k = 1 ∧ ∀ t', (k, t') ∈ owners → t' = t

variable {exclusive : τ → Bool} {counts : JsMap κ Nat} {exclusives : JsMap κ τ}
  {owners owners' : List (κ × τ)} {k : κ} {t : τ}

theorem counted_empty : Counted exclusive (.empty : JsMap κ Nat) (.empty : JsMap κ τ) [] where
  count := fun _ => rfl
  positive := fun _ h => by cases h
  marked := fun _ _ h => absurd h List.not_mem_nil
  alone := fun _ _ h => by cases h

theorem Counted.perm (h : Counted exclusive counts exclusives owners) (hp : owners.Perm owners') :
    Counted exclusive counts exclusives owners' where
  count := fun k => (h.count k).trans (hp.countP_eq _)
  positive := h.positive
  marked := fun k t hmem => h.marked k t (hp.mem_iff.mpr hmem)
  alone := fun k t hk =>
    ⟨(h.alone k t hk).1, fun t' hmem => (h.alone k t hk).2 t' (hp.mem_iff.mpr hmem)⟩

@[simp] theorem countOf_set (counts : JsMap κ Nat) (k j : κ) (n : Nat) :
    countOf (counts.set k n) j = if k = j then n else countOf counts j := by
  unfold countOf
  rw [JsMap.get?_set]
  split <;> rfl

@[simp] theorem countOf_delete (counts : JsMap κ Nat) (k j : κ) :
    countOf (counts.delete k) j = if k = j then 0 else countOf counts j := by
  unfold countOf
  rw [JsMap.get?_delete]
  split <;> rfl

theorem countOf_dropCount (counts : JsMap κ Nat) (k j : κ) :
    countOf (dropCount counts k) j = if k = j then countOf counts k - 1 else countOf counts j := by
  unfold dropCount
  split
  · rw [countOf_delete]
    split
    · omega
    · rfl
  · rw [countOf_set]

theorem get?_dropMark [DecidableEq τ] (exclusives : JsMap κ τ) (k j : κ) (t : τ) :
    (dropMark exclusives k t).get? j
      = if k = j ∧ exclusives.get? k = some t then none else exclusives.get? j := by
  unfold dropMark
  by_cases hmark : exclusives.get? k = some t
  · rw [if_pos hmark, JsMap.get?_delete]
    simp only [hmark, and_true]
  · rw [if_neg hmark, if_neg fun hj => hmark hj.2]

/-- A key that is not counted has no owner. -/
theorem Counted.not_mem_of_count (h : Counted exclusive counts exclusives owners)
    (hnone : countOf counts k = 0) : (k, t) ∉ owners := by
  intro hmem
  rw [h.count k, List.countP_eq_zero] at hnone
  exact hnone (k, t) hmem (decide_eq_true rfl)

/-- One owner more: an exclusive one where there is none, any other where nobody is marked. -/
theorem Counted.reserve (h : Counted exclusive counts exclusives owners)
    (hexclusive : exclusive t = true → countOf counts k = 0)
    (hshared : exclusive t = false → exclusives.get? k = none) :
    Counted exclusive (counts.set k (countOf counts k + 1))
      (if exclusive t then exclusives.set k t else exclusives) ((k, t) :: owners) where
  count := by
    intro j
    rw [countOf_set, List.countP_cons, ← h.count j]
    by_cases hj : k = j
    · simp [hj]
    · simp [hj]
  positive := by
    intro j
    rw [JsMap.get?_set]
    split
    · simp
    · exact h.positive j
  marked := by
    intro j t' hmem hex
    rcases List.mem_cons.mp hmem with heq | hmem
    · cases heq
      rw [if_pos hex, JsMap.get?_set, if_pos rfl]
    · have hmark := h.marked j t' hmem hex
      have hne : k ≠ j := by
        rintro rfl
        cases ht : exclusive t with
        | true => exact h.not_mem_of_count (hexclusive ht) hmem
        | false =>
          rw [hshared ht] at hmark
          cases hmark
      split
      · rw [JsMap.get?_set, if_neg hne]
        exact hmark
      · exact hmark
  alone := by
    intro j t' hmark
    by_cases hj : k = j
    · subst hj
      cases ht : exclusive t with
      | false =>
        rw [ht, if_neg (by simp), hshared ht] at hmark
        cases hmark
      | true =>
        have hnone := hexclusive ht
        rw [ht, if_pos rfl, JsMap.get?_set, if_pos rfl] at hmark
        obtain rfl := Option.some.inj hmark
        refine ⟨by rw [countOf_set, if_pos rfl, hnone], ?_⟩
        intro t' hmem
        rcases List.mem_cons.mp hmem with heq | hmem
        · exact congrArg Prod.snd heq
        · exact absurd hmem (h.not_mem_of_count hnone)
    · have hold : exclusives.get? j = some t' := by
        split at hmark
        · rwa [JsMap.get?_set, if_neg hj] at hmark
        · exact hmark
      refine ⟨by rw [countOf_set, if_neg hj]; exact (h.alone j t' hold).1, ?_⟩
      intro t'' hmem
      rcases List.mem_cons.mp hmem with heq | hmem
      · exact absurd (congrArg Prod.fst heq).symm hj
      · exact (h.alone j t' hold).2 t'' hmem

theorem dropCount_positive (hpositive : ∀ j, counts.get? j ≠ some 0) (k : κ) (j : κ) :
    (dropCount counts k).get? j ≠ some 0 := by
  unfold dropCount
  split
  · rw [JsMap.get?_delete]
    split
    · simp
    · exact hpositive j
  · rw [JsMap.get?_set]
    split
    · rw [ne_eq, Option.some.injEq]
      omega
    · exact hpositive j

/-- An owner gives its lease back. -/
theorem Counted.release [DecidableEq τ]
    (h : Counted exclusive counts exclusives ((k, t) :: owners)) :
    Counted exclusive (dropCount counts k) (dropMark exclusives k t) owners where
  count := by
    intro j
    have hall := h.count j
    rw [List.countP_cons] at hall
    rw [countOf_dropCount]
    by_cases hj : k = j
    · subst hj
      rw [if_pos (decide_eq_true rfl)] at hall
      rw [if_pos rfl]
      omega
    · rw [if_neg (by simpa using hj)] at hall
      rw [if_neg hj]
      omega
  positive := dropCount_positive h.positive k
  marked := by
    intro j t' hmem hex
    have hmark := h.marked j t' (List.mem_cons_of_mem _ hmem) hex
    rw [get?_dropMark, if_neg]
    · exact hmark
    · -- a second owner of the key is not alone
      rintro ⟨rfl, -⟩
      have hone := (h.alone k t' hmark).1
      rw [h.count k, List.countP_cons, if_pos (decide_eq_true rfl)] at hone
      have hnone : owners.countP (·.1 = k) = 0 := by omega
      exact List.countP_eq_zero.mp hnone (k, t') hmem (decide_eq_true rfl)
  alone := by
    intro j t' hmark
    rw [get?_dropMark] at hmark
    split at hmark
    · cases hmark
    · rename_i hkept
      obtain ⟨hone, htokens⟩ := h.alone j t' hmark
      have hne : k ≠ j := by
        rintro rfl
        obtain rfl := htokens t List.mem_cons_self
        exact hkept ⟨rfl, hmark⟩
      rw [countOf_dropCount, if_neg hne]
      exact ⟨hone, fun t'' hmem => htokens t'' (List.mem_cons_of_mem _ hmem)⟩

/-- Where nothing is counted, there is nothing to give back. -/
theorem Counted.release_absent [DecidableEq τ] (h : Counted exclusive counts exclusives owners)
    (hnone : countOf counts k = 0) :
    Counted exclusive (dropCount counts k) (dropMark exclusives k t) owners where
  count := by
    intro j
    rw [countOf_dropCount, ← h.count j]
    split
    · rename_i hj
      rw [← hj, hnone]
    · rfl
  positive := dropCount_positive h.positive k
  marked := by
    intro j t' hmem hex
    rw [get?_dropMark, if_neg]
    · exact h.marked j t' hmem hex
    · rintro ⟨rfl, -⟩
      exact h.not_mem_of_count hnone hmem
  alone := by
    intro j t' hmark
    rw [get?_dropMark] at hmark
    split at hmark
    · cases hmark
    · obtain ⟨hone, htokens⟩ := h.alone j t' hmark
      refine ⟨?_, htokens⟩
      rw [countOf_dropCount, if_neg]
      · exact hone
      · rintro rfl
        omega

/-- All owners of a key lose their leases. -/
theorem Counted.invalidate (h : Counted exclusive counts exclusives owners) (k : κ) :
    Counted exclusive (counts.delete k) (exclusives.delete k) (owners.filter (·.1 ≠ k)) where
  count := by
    intro j
    rw [countOf_delete, List.countP_filter]
    by_cases hj : k = j
    · subst hj
      rw [if_pos rfl, eq_comm, List.countP_eq_zero]
      rintro ⟨k', t'⟩ - hboth
      simp only [Bool.and_eq_true, decide_eq_true_eq, ne_eq] at hboth
      exact hboth.2 hboth.1
    · rw [if_neg hj, h.count j]
      refine List.countP_congr ?_
      rintro ⟨k', t'⟩ -
      simp only [decide_eq_true_eq, ne_eq, Bool.and_eq_true]
      exact ⟨fun heq => ⟨heq, fun hk => hj (hk.symm.trans heq)⟩, fun hboth => hboth.1⟩
  positive := by
    intro j
    rw [JsMap.get?_delete]
    split
    · simp
    · exact h.positive j
  marked := by
    intro j t' hmem hex
    obtain ⟨hmem, hne⟩ := List.mem_filter.mp hmem
    rw [JsMap.get?_delete, if_neg (Ne.symm (of_decide_eq_true hne))]
    exact h.marked j t' hmem hex
  alone := by
    intro j t' hmark
    rw [JsMap.get?_delete] at hmark
    split at hmark
    · cases hmark
    · rename_i hne
      obtain ⟨hone, htokens⟩ := h.alone j t' hmark
      rw [countOf_delete, if_neg hne]
      exact ⟨hone, fun t'' hmem => htokens t'' (List.mem_of_mem_filter hmem)⟩

/-- What has an owner is counted. -/
theorem Counted.mem_keys (h : Counted exclusive counts exclusives owners) (hmem : (k, t) ∈ owners) :
    k ∈ counts.keys := by
  by_contra hnot
  have hnone : countOf counts k = 0 := by
    rw [countOf, JsMap.get?_eq_none_iff.mpr hnot]
    rfl
  exact h.not_mem_of_count hnone hmem

end PiMono.SharedLeases
