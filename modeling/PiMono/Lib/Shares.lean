import Mathlib.Algebra.BigOperators.Group.List.Basic
import Mathlib.Algebra.Order.Ring.Nat
import Mathlib.Tactic.Common

/-!
# Sharing out an amount

Each of some items has room. An amount is shared out among them in rounds: an item with room gets
what `share` proposes for it, one at least, within its room and within what is left. `shareOut`
ends, and then the amount is used up or no room is left.
-/

namespace PiMono

variable {α : Type} (room : α → Nat) (put : α → Nat → α) (share : Nat → α → Nat)

/-- What an item gets. -/
def portion (left : Nat) (item : α) : Nat :=
  if 0 < room item then min left (min (max 1 (share left item)) (room item)) else 0

/-- One round: the items behind it, and what is left. -/
def shareRound : Nat → List α → List α × Nat
  | left, [] => ([], left)
  | left, item :: items =>
    let delta := portion room share left item
    let (items', left') := shareRound (left - delta) items
    (put item delta :: items', left')

theorem portion_le_left (left : Nat) (item : α) : portion room share left item ≤ left := by
  rw [portion]
  split
  · exact Nat.min_le_left _ _
  · exact Nat.zero_le left

theorem portion_le_room (left : Nat) (item : α) : portion room share left item ≤ room item := by
  rw [portion]
  split
  · exact Nat.le_trans (Nat.min_le_right _ _) (Nat.min_le_right _ _)
  · exact Nat.zero_le _

/-- While something is left, an item with room gets something. -/
theorem portion_pos {left : Nat} {item : α} (hleft : 0 < left) (hroom : 0 < room item) :
    0 < portion room share left item := by
  rw [portion, if_pos hroom]
  exact Nat.lt_min.mpr ⟨hleft, Nat.lt_min.mpr ⟨Nat.lt_of_lt_of_le Nat.one_pos (Nat.le_max_left _ _),
    hroom⟩⟩

theorem shareRound_le (items : List α) :
    ∀ left, (shareRound room put share left items).2 ≤ left := by
  induction items with
  | nil => exact fun left => Nat.le_refl left
  | cons item items ih => exact fun left => Nat.le_trans (ih _) (Nat.sub_le _ _)

/-- The rounds; what is proposed may depend on the items in front of a round. -/
def shareOut (share : List α → Nat → α → Nat) (amount : Nat) (items : List α) : List α :=
  let round := shareRound room put (share items) amount items
  if round.2 < amount then shareOut share round.2 round.1 else round.1
termination_by amount

/-! ## Each item -/

variable {room put}

/-- What every portion keeps, a round keeps. -/
theorem forall₂_shareRound {R : α → α → Prop}
    (hput : ∀ item delta, delta ≤ room item → R item (put item delta)) (items : List α) :
    ∀ left, List.Forall₂ R items (shareRound room put share left items).1 := by
  induction items with
  | nil => exact fun _ => .nil
  | cons item items ih =>
    exact fun left => .cons (hput item _ (portion_le_room room share left item)) (ih _)

theorem forall₂_trans {R : α → α → Prop} (htrans : ∀ a b c, R a b → R b c → R a c)
    {xs ys zs : List α} (hxy : List.Forall₂ R xs ys) (hyz : List.Forall₂ R ys zs) :
    List.Forall₂ R xs zs := by
  induction hxy generalizing zs with
  | nil => exact hyz
  | cons hab _ ih =>
    cases hyz with
    | cons hbc hrest => exact .cons (htrans _ _ _ hab hbc) (ih hrest)

/-- What every portion keeps, and what holds without any, holds behind the rounds. -/
theorem forall₂_shareOut {R : α → α → Prop} (share : List α → Nat → α → Nat)
    (hput : ∀ item delta, delta ≤ room item → R item (put item delta))
    (htrans : ∀ a b c, R a b → R b c → R a c) (amount : Nat) (items : List α) :
    List.Forall₂ R items (shareOut room put share amount items) := by
  induction amount using Nat.strongRecOn generalizing items with
  | ind amount ih =>
    have hround := forall₂_shareRound (share items) hput items amount
    rw [shareOut]
    split
    · rename_i hless
      exact forall₂_trans htrans hround (ih _ hless _)
    · exact hround

/-! ## The whole -/

/-- The room of all items. -/
def totalRoom (room : α → Nat) (items : List α) : Nat := (items.map room).sum

variable (hput : ∀ item delta, delta ≤ room item → room (put item delta) + delta = room item)

include hput

theorem totalRoom_shareRound (items : List α) : ∀ left,
    totalRoom room (shareRound room put share left items).1 + left =
      totalRoom room items + (shareRound room put share left items).2 := by
  induction items with
  | nil => exact fun left => rfl
  | cons item items ih =>
    intro left
    have hrest := ih (left - portion room share left item)
    have hroom := hput item _ (portion_le_room room share left item)
    have hleft := portion_le_left room share left item
    simp only [shareRound, totalRoom, List.map_cons, List.sum_cons] at hrest ⊢
    omega

omit hput in
/-- A round in which nothing is shared out found no room. -/
theorem totalRoom_of_le {left : Nat} (hpos : 0 < left) (items : List α)
    (hnone : left ≤ (shareRound room put share left items).2) : totalRoom room items = 0 := by
  induction items with
  | nil => rfl
  | cons item items ih =>
    have hle : (shareRound room put share left (item :: items)).2 ≤
        left - portion room share left item := shareRound_le room put share items _
    have hfull : room item = 0 := by
      by_contra hroom
      have := portion_pos room share hpos (Nat.pos_of_ne_zero hroom)
      omega
    have hzero : portion room share left item = 0 := by
      rw [portion, hfull]
      rfl
    rw [shareRound, hzero] at hnone
    rw [totalRoom, List.map_cons, List.sum_cons, hfull, Nat.zero_add]
    exact ih hnone

/-- Either the amount is used up, or no room is left. -/
theorem totalRoom_shareOut (share : List α → Nat → α → Nat) (amount : Nat) (items : List α) :
    totalRoom room (shareOut room put share amount items) = totalRoom room items - amount := by
  induction amount using Nat.strongRecOn generalizing items with
  | ind amount ih =>
    have hround := totalRoom_shareRound (share items) hput items amount
    have hle := shareRound_le room put (share items) items amount
    rw [shareOut]
    split
    · rename_i hless
      rw [ih _ hless]
      omega
    · rename_i hnone
      obtain rfl | hpos := Nat.eq_zero_or_pos amount
      · omega
      · have hfull := totalRoom_of_le (share items) hpos items (Nat.le_of_not_lt hnone)
        omega

end PiMono
