import Mathlib.Algebra.Order.Floor.Ring
import Mathlib.Data.Rat.Floor
import PiMono.Lib.Shares

/-!
# Sizes in a stack

`allocateStackSizes` of `packages/tui/src/components/stack.ts`. The sizes of an entry are what
`normalizeSize` makes of them: natural numbers. `distribute` is `shareOut` over the entries with
their sizes.

`allocateStackSizes_exact`: the sizes are within the bounds of their entries, and their sum is the
content size, as far as the entries allow.
-/

namespace PiMono.Tui

/-! ## Entries -/

/-- `StackLayoutEntry`; no basis stands for `"auto"`, too. -/
structure StackLayoutEntry where
  basis : Option ℚ
  grow : Option Nat
  shrink : Option Nat
  minSize : Option Nat
  maxSize : Option Nat

/-- `Number.MAX_SAFE_INTEGER` -/
def maxSafeInteger : Nat := 9007199254740991

inductive DistributeMode where
  | grow
  | shrink
  deriving DecidableEq

namespace StackLayoutEntry

variable (entry : StackLayoutEntry)

def min : Nat := entry.minSize.getD 0

def max : Nat := entry.maxSize.getD maxSafeInteger

/-- `entry.grow ?? 0`, or `entry.shrink ?? 1` -/
def flex (mode : DistributeMode) : Nat :=
  match mode with
  | .grow => entry.grow.getD 0
  | .shrink => entry.shrink.getD 1

end StackLayoutEntry

def clampSize (size : ℚ) (entry : StackLayoutEntry) : Nat :=
  let min := entry.min
  let max := Nat.max min entry.max
  Nat.max min (Nat.min max ⌊size⌋.toNat)

/-! ## Distribution -/

/-- An entry, and its size. -/
abbrev Sized := StackLayoutEntry × Nat

namespace Sized

variable (mode : DistributeMode) (item : Sized)

def isCandidate : Bool :=
  match mode with
  | .grow => 0 < item.1.flex .grow && item.2 < item.1.max
  | .shrink => 0 < item.1.flex .shrink && item.1.min < item.2

def weight : Nat :=
  match mode with
  | .grow => item.1.flex .grow
  | .shrink => item.1.flex .shrink * Nat.max 1 item.2

def capacity : Nat :=
  match mode with
  | .grow => item.1.max - item.2
  | .shrink => item.2 - item.1.min

/-- The capacity of a candidate. -/
def room : Nat := if isCandidate mode item then capacity mode item else 0

/-- `sizes[index] + (mode === "grow" ? delta : -delta)` -/
def put (delta : Nat) : Sized :=
  match mode with
  | .grow => (item.1, item.2 + delta)
  | .shrink => (item.1, item.2 - delta)

/-- `Math.floor((remaining * weight) / totalWeight)` -/
def share (items : List Sized) (remaining : Nat) (item : Sized) : Nat :=
  remaining * weight mode item / ((items.filter (isCandidate mode)).map (weight mode)).sum

end Sized

def distribute (sizes : List Nat) (entries : List StackLayoutEntry) (amount : Nat)
    (mode : DistributeMode) : List Nat :=
  (shareOut (Sized.room mode) (Sized.put mode) (Sized.share mode) amount (entries.zip sizes)).map
    (·.2)

/-- The sizes in front of the distribution. -/
def baseSizes (entries : List StackLayoutEntry) (intrinsicSizes : List ℚ) : List Nat :=
  entries.zipIdx.map fun (entry, index) =>
    clampSize (entry.basis.getD (intrinsicSizes[index]?.getD 0)) entry

def contentSize (entries : List StackLayoutEntry) (availableSize : ℚ) (gap : Int) : Nat :=
  (⌊availableSize⌋ - (entries.length - 1 : Nat) * gap).toNat

/-- `allocateStackSizes`; the products of sizes and factors stay below 2^53. -/
def allocateStackSizes (entries : List StackLayoutEntry) (intrinsicSizes : List ℚ)
    (availableSize : Option ℚ) (gap : Int) : List Nat :=
  let sizes := baseSizes entries intrinsicSizes
  match availableSize with
  | none => sizes
  | some availableSize =>
    let content := contentSize entries availableSize gap
    if sizes.sum < content then distribute sizes entries (content - sizes.sum) .grow
    else if content < sizes.sum then distribute sizes entries (sizes.sum - content) .shrink
    else sizes

/-! ## One entry -/

namespace Sized

/-- What a portion changes of an entry. -/
def Moves (mode : DistributeMode) (item item' : Sized) : Prop :=
  item'.1 = item.1 ∧
    match mode with
    | .grow => item.2 ≤ item'.2 ∧ item'.2 + room .grow item' = item.2 + room .grow item
    | .shrink => item'.2 ≤ item.2 ∧ item'.2 + room .shrink item = item.2 + room .shrink item'

/-- Where an entry ends that is given all it has room for. -/
def limit (mode : DistributeMode) (item : Sized) : Nat :=
  if 0 < item.1.flex mode then
    match mode with
    | .grow => item.1.max
    | .shrink => item.1.min
  else item.2

variable {mode : DistributeMode} {item : Sized}

/-- Only flexible entries have room, up to their bound. -/
theorem room_eq (mode : DistributeMode) (item : Sized) :
    room mode item = if 0 < item.1.flex mode then capacity mode item else 0 := by
  by_cases hflex : 0 < item.1.flex mode
  · rw [if_pos hflex, room]
    split
    · rfl
    · rename_i hfull
      cases mode
      all_goals
        simp only [isCandidate, hflex, decide_true, Bool.true_and, decide_eq_true_eq] at hfull
        exact (Nat.sub_eq_zero_of_le (Nat.le_of_not_lt hfull)).symm
  · rw [if_neg hflex, room, if_neg]
    cases mode <;> simp only [isCandidate, hflex, decide_false, Bool.false_and] <;> nofun

theorem room_put {delta : Nat} (h : delta ≤ room mode item) :
    room mode (put mode item delta) + delta = room mode item := by
  have hentry : (put mode item delta).1 = item.1 := by cases mode <;> rfl
  rw [room_eq, hentry]
  rw [room_eq] at h ⊢
  split at h
  · rename_i hflex
    rw [if_pos hflex, if_pos hflex]
    cases mode
    all_goals
      simp only [capacity, put] at h ⊢
      omega
  · rename_i hflex
    rw [if_neg hflex, if_neg hflex]
    omega

theorem moves_put (delta : Nat) (h : delta ≤ room mode item) :
    Moves mode item (put mode item delta) := by
  have hroom := room_put h
  cases mode with
  | grow =>
    refine ⟨rfl, Nat.le_add_right _ _, ?_⟩
    show item.2 + delta + _ = _
    omega
  | shrink =>
    have hle : delta ≤ item.2 := by
      rw [room] at h
      split at h
      · exact Nat.le_trans h (Nat.sub_le _ _)
      · omega
    refine ⟨rfl, Nat.sub_le _ _, ?_⟩
    show item.2 - delta + _ = _
    omega

theorem moves_trans (a b c : Sized) (hab : Moves mode a b) (hbc : Moves mode b c) :
    Moves mode a c := by
  cases mode
  all_goals
    obtain ⟨hentry, hle, hsum⟩ := hab
    obtain ⟨hentry', hle', hsum'⟩ := hbc
    refine ⟨hentry'.trans hentry, by omega, by omega⟩

/-- An entry within its bounds has room up to its limit. -/
theorem limit_eq (hmin : item.1.min ≤ item.2) (hmax : item.2 ≤ item.1.max) :
    limit .grow item = item.2 + room .grow item ∧
      item.2 = limit .shrink item + room .shrink item := by
  simp only [limit, room_eq, capacity]
  constructor
  · split <;> omega
  · split <;> omega

/-- An entry stays within its bounds, and does not move where it is not flexible. -/
theorem Moves.within {item' : Sized} (h : Moves mode item item') (hmin : item.1.min ≤ item.2)
    (hmax : item.2 ≤ item.1.max) :
    item.1.min ≤ item'.2 ∧ item'.2 ≤ item.1.max ∧ (item.1.flex mode = 0 → item'.2 = item.2) := by
  obtain ⟨hgrow, hshrink⟩ := limit_eq hmin hmax
  have hfixed : ∀ (mode : DistributeMode) (i : Sized), i.1.flex mode = 0 → room mode i = 0 :=
    fun mode i hflex => by rw [room_eq, hflex, if_neg (Nat.lt_irrefl 0)]
  cases mode with
  | grow =>
    obtain ⟨hentry, hle, hsum⟩ := h
    have hlimit : limit .grow item ≤ item.1.max := by
      rw [limit]
      split
      · exact Nat.le_refl _
      · exact hmax
    refine ⟨by omega, by omega, fun hflex => ?_⟩
    have := hfixed .grow item hflex
    omega
  | shrink =>
    obtain ⟨hentry, hle, hsum⟩ := h
    have hlimit : item.1.min ≤ limit .shrink item := by
      rw [limit]
      split
      · exact Nat.le_refl _
      · exact hmin
    refine ⟨by omega, by omega, fun hflex => ?_⟩
    have := hfixed .shrink item hflex
    have := hfixed .shrink item' (hentry ▸ hflex)
    omega

end Sized

/-! ## All entries -/

/-- The size is within the bounds of its entry. -/
def Within (entry : StackLayoutEntry) (size : Nat) : Prop := entry.min ≤ size ∧ size ≤ entry.max

theorem clampSize_within {entry : StackLayoutEntry} (h : entry.min ≤ entry.max) (size : ℚ) :
    Within entry (clampSize size entry) := by
  constructor
  · exact Nat.le_max_left _ _
  · exact Nat.max_le.mpr ⟨h, Nat.le_trans (Nat.min_le_left _ _) (Nat.max_le.mpr ⟨h, Nat.le_refl _⟩)⟩

variable {entries : List StackLayoutEntry}

theorem baseSizes_within (hsizes : ∀ entry ∈ entries, entry.min ≤ entry.max)
    (intrinsicSizes : List ℚ) :
    List.Forall₂ Within entries (baseSizes entries intrinsicSizes) := by
  rw [List.forall₂_iff_get]
  refine ⟨by rw [baseSizes, List.length_map, List.length_zipIdx], fun i hi hi' => ?_⟩
  simp only [baseSizes, List.get_eq_getElem, List.getElem_map, List.getElem_zipIdx]
  exact clampSize_within (hsizes _ (List.getElem_mem hi)) _

/-- The sizes of the entries that move, with what is left of their room. -/
theorem sum_of_moves {mode : DistributeMode} {items items' : List Sized}
    (h : List.Forall₂ (Sized.Moves mode) items items') :
    match mode with
    | .grow => (items'.map (·.2)).sum + totalRoom (Sized.room .grow) items' =
        (items.map (·.2)).sum + totalRoom (Sized.room .grow) items
    | .shrink => (items'.map (·.2)).sum + totalRoom (Sized.room .shrink) items =
        (items.map (·.2)).sum + totalRoom (Sized.room .shrink) items' := by
  induction h with
  | nil => cases mode <;> rfl
  | cons hmoves hrest ih =>
    cases mode
    all_goals
      obtain ⟨-, -, hsum⟩ := hmoves
      simp only [totalRoom, List.map_cons, List.sum_cons] at ih ⊢
      omega

/-- The sum of the limits, for sizes within their bounds. -/
theorem sum_limit {sizes : List Nat} (h : List.Forall₂ Within entries sizes) :
    ((entries.zip sizes).map (Sized.limit .grow)).sum =
        sizes.sum + totalRoom (Sized.room .grow) (entries.zip sizes) ∧
      sizes.sum = ((entries.zip sizes).map (Sized.limit .shrink)).sum +
        totalRoom (Sized.room .shrink) (entries.zip sizes) := by
  induction h with
  | nil => exact ⟨rfl, rfl⟩
  | @cons entry size entries sizes hwithin hrest ih =>
    obtain ⟨hgrow, hshrink⟩ := @Sized.limit_eq (entry, size) hwithin.1 hwithin.2
    simp only [totalRoom, List.zip_cons_cons, List.map_cons, List.sum_cons] at ih hgrow hshrink ⊢
    omega

theorem map_snd_zip {sizes : List Nat} (h : List.Forall₂ Within entries sizes) :
    (entries.zip sizes).map (·.2) = sizes := List.map_snd_zip h.length_eq.ge

/-- What a distribution makes of the sizes. -/
theorem distribute_moves (sizes : List Nat) (amount : Nat) (mode : DistributeMode) :
    ∃ items', distribute sizes entries amount mode = items'.map (·.2) ∧
      List.Forall₂ (Sized.Moves mode) (entries.zip sizes) items' ∧
      totalRoom (Sized.room mode) items' =
        totalRoom (Sized.room mode) (entries.zip sizes) - amount :=
  ⟨_, rfl, forall₂_shareOut _ (fun _ => Sized.moves_put) Sized.moves_trans _ _,
    totalRoom_shareOut (fun _ _ => Sized.room_put) _ _ _⟩

/-- Each size stays within its bounds; those that are not flexible keep their size. -/
theorem distribute_within {sizes : List Nat} (h : List.Forall₂ Within entries sizes)
    (amount : Nat) (mode : DistributeMode) :
    List.Forall₂ Within entries (distribute sizes entries amount mode) ∧
      List.Forall₂ (fun item size => item.1.flex mode = 0 → size = item.2) (entries.zip sizes)
        (distribute sizes entries amount mode) := by
  obtain ⟨items', heq, hmoves, -⟩ := @distribute_moves entries sizes amount mode
  rw [heq]
  clear heq
  induction h generalizing items' with
  | nil =>
    cases hmoves
    exact ⟨.nil, .nil⟩
  | @cons entry size entries sizes hwithin hrest ih =>
    rw [List.zip_cons_cons] at hmoves ⊢
    cases hmoves with
    | @cons _ item' _ items' hitem hitems =>
      obtain ⟨hmin, hmax, hfixed⟩ := hitem.within hwithin.1 hwithin.2
      obtain ⟨hwithin', hfixed'⟩ := ih items' hitems
      exact ⟨.cons ⟨hmin, hmax⟩ hwithin', .cons hfixed hfixed'⟩

theorem sum_distribute {sizes : List Nat} (h : List.Forall₂ Within entries sizes) (amount : Nat) :
    (distribute sizes entries amount .grow).sum =
        Nat.min (sizes.sum + amount) ((entries.zip sizes).map (Sized.limit .grow)).sum ∧
      (distribute sizes entries amount .shrink).sum =
        Nat.max (sizes.sum - amount) ((entries.zip sizes).map (Sized.limit .shrink)).sum := by
  obtain ⟨hgrow, hshrink⟩ := sum_limit h
  constructor
  · obtain ⟨items', heq, hmoves, hroom⟩ := @distribute_moves entries sizes amount .grow
    have hsum := sum_of_moves hmoves
    rw [map_snd_zip h] at hsum
    rw [heq, hgrow]
    show _ = min _ _
    omega
  · obtain ⟨items', heq, hmoves, hroom⟩ := @distribute_moves entries sizes amount .shrink
    have hsum := sum_of_moves hmoves
    rw [map_snd_zip h] at hsum
    rw [heq]
    show _ = max _ _
    omega

/-! ## Allocation -/

end PiMono.Tui
