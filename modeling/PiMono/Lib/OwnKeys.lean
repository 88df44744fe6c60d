import PiMono.Lib.JsNumber
import Mathlib.Data.List.Pairwise

/-!
# The order of an object's own keys

The keys that are array indices come first, in ascending order; the others follow in
the order they were added. `addField` adds a property of a new name at its place and
`OwnOrder` says that some keys are in order. Adding the fields of an ordered object one
by one gives the object (`addField_concat`).
-/

namespace PiMono

/-- The array index a key is: the digits of a number below `2^32 - 1`, as the number is
written. -/
def arrayIndex? (key : JsString) : Option Nat :=
  (key.mapM unitDigit?).bind fun ds =>
    if JsNumber.digitsText (natDigits (digitsNat ds)) = key ∧ digitsNat ds < 2 ^ 32 - 1 then
      some (digitsNat ds)
    else none

theorem arrayIndex?_eq_some {key : JsString} {n : Nat} (h : arrayIndex? key = some n) :
    key = JsNumber.digitsText (natDigits n) := by
  rw [arrayIndex?, Option.bind_eq_some_iff] at h
  obtain ⟨ds, -, hds⟩ := h
  split at hds
  · rename_i hwritten
    rw [← Option.some.inj hds, hwritten.1]
  · cases hds

/-- No two keys are one index. -/
theorem arrayIndex?_inj {j k : JsString} {n : Nat} (hj : arrayIndex? j = some n)
    (hk : arrayIndex? k = some n) : j = k := by
  rw [arrayIndex?_eq_some hj, arrayIndex?_eq_some hk]

/-- The key of an index that is smaller than `n`. -/
def isIndexBelow (n : Nat) (key : JsString) : Bool :=
  match arrayIndex? key with
  | some m => m < n
  | none => false

theorem isIndexBelow_iff {n : Nat} {key : JsString} :
    isIndexBelow n key = true ↔ ∃ m, arrayIndex? key = some m ∧ m < n := by
  unfold isIndexBelow
  cases arrayIndex? key with
  | none => simp
  | some m => simp

/-- The key `j` may stand before the key `k`. -/
def Precedes (j k : JsString) : Prop :=
  j ≠ k ∧ ∀ n, arrayIndex? k = some n → isIndexBelow n j = true

instance (j k : JsString) : Decidable (Precedes j k) :=
  match h : arrayIndex? k with
  | none => decidable_of_iff (j ≠ k) (by simp [Precedes, h])
  | some n => decidable_of_iff (j ≠ k ∧ isIndexBelow n j = true) (by simp [Precedes, h])

/-- Different keys, in the order an object has them. -/
def OwnOrder (keys : List JsString) : Prop := keys.Pairwise Precedes

instance (keys : List JsString) : Decidable (OwnOrder keys) :=
  inferInstanceAs (Decidable (keys.Pairwise Precedes))

section Fields

variable {α : Type} {fields : List (JsString × α)} {key : JsString}

/-- Add a property of a new name. -/
def addField (fields : List (JsString × α)) (key : JsString) (v : α) : List (JsString × α) :=
  match arrayIndex? key with
  | none => fields ++ [(key, v)]
  | some n =>
    fields.takeWhile (fun f => isIndexBelow n f.1)
      ++ (key, v) :: fields.dropWhile (fun f => isIndexBelow n f.1)

theorem addField_perm (fields : List (JsString × α)) (key : JsString) (v : α) :
    (addField fields key v).Perm ((key, v) :: fields) := by
  unfold addField
  split
  · exact List.perm_append_singleton ..
  · rename_i n _
    refine List.perm_middle.trans (List.Perm.cons _ ?_)
    rw [List.takeWhile_append_dropWhile]

/-- A property whose name is the last one goes to the end. -/
theorem addField_concat (v : α) (h : OwnOrder (fields.map Prod.fst ++ [key])) :
    addField fields key v = fields ++ [(key, v)] := by
  unfold addField
  split
  · rfl
  · rename_i n hn
    have hbelow : ∀ f ∈ fields, isIndexBelow n f.1 = true := fun f hf =>
      ((List.pairwise_append.mp h).2.2 f.1 (List.mem_map_of_mem hf) key
        (List.mem_singleton.mpr rfl)).2 n hn
    rw [List.takeWhile_eq_self_iff.mpr hbelow, List.dropWhile_eq_nil_iff.mpr hbelow]

theorem map_fst_addField (fields : List (JsString × α)) (key : JsString) (v : α) :
    ((addField fields key v).map Prod.fst).Perm (key :: fields.map Prod.fst) :=
  (addField_perm fields key v).map Prod.fst

theorem addField_cons {n : Nat} (hn : arrayIndex? key = some n) (f : JsString × α) (v : α) :
    addField (f :: fields) key v
      = if isIndexBelow n f.1 then f :: addField fields key v else (key, v) :: f :: fields := by
  unfold addField
  simp only [hn, List.takeWhile_cons, List.dropWhile_cons]
  split <;> rfl

/-- The keys stay in order. -/
theorem ownOrder_addField (v : α) (h : OwnOrder (fields.map Prod.fst))
    (hkey : key ∉ fields.map Prod.fst) : OwnOrder ((addField fields key v).map Prod.fst) := by
  cases hindex : arrayIndex? key with
  | none =>
    unfold addField
    simp only [hindex, List.map_append]
    refine List.pairwise_append.mpr ⟨h, List.pairwise_singleton _ _, ?_⟩
    intro j hj k hk
    obtain rfl : k = key := List.mem_singleton.mp hk
    refine ⟨fun heq => hkey (heq ▸ hj), fun n hn => ?_⟩
    rw [hindex] at hn
    cases hn
  | some n =>
    induction fields with
    | nil =>
      unfold addField
      simp only [hindex]
      exact List.pairwise_singleton _ _
    | cons f fields ih =>
      obtain ⟨hf, hrest⟩ := List.pairwise_cons.mp h
      have hfk : f.1 ≠ key := fun heq => hkey (by simp [heq])
      have hkey' : key ∉ fields.map Prod.fst := fun hmem => hkey (List.mem_cons_of_mem _ hmem)
      rw [addField_cons hindex]
      split
      · rename_i hbelow
        refine List.pairwise_cons.mpr ⟨fun k hk => ?_, ih hrest hkey'⟩
        rcases List.mem_cons.mp ((map_fst_addField fields key v).mem_iff.mp hk) with rfl | hk
        · refine ⟨hfk, fun m hm => ?_⟩
          obtain rfl : n = m := Option.some.inj (hindex.symm.trans hm)
          exact hbelow
        · exact hf k hk
      · rename_i hnot
        refine List.pairwise_cons.mpr ⟨fun k hk => ?_, h⟩
        have hkk : key ≠ k := fun heq => hkey (heq.symm ▸ hk)
        refine ⟨hkk, fun m hm => isIndexBelow_iff.mpr ⟨n, hindex, ?_⟩⟩
        -- the first key behind is no smaller index, and the others are greater still
        have hne : ∀ j i, j ≠ key → arrayIndex? j = some i → isIndexBelow n j ≠ true → n < i := by
          intro j i hj hi hge
          by_contra hle
          rcases Nat.lt_or_eq_of_le (Nat.not_lt.mp hle) with hlt | rfl
          · exact hge (isIndexBelow_iff.mpr ⟨i, hi, hlt⟩)
          · exact hj (arrayIndex?_inj hi hindex)
        rcases List.mem_cons.mp hk with rfl | hk
        · exact hne _ m hfk hm hnot
        · obtain ⟨i, hi, him⟩ := isIndexBelow_iff.mp ((hf k hk).2 m hm)
          exact lt_trans (hne _ i hfk hi hnot) him

end Fields

end PiMono
