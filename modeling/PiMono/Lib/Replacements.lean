import Mathlib.Data.List.Basic
import Mathlib.Data.List.Range
import Mathlib.Tactic.Common

/-!
# Replacing parts of a text

`replaceAll` replaces the last part first, so that the positions of the others stay
right. `rendered` says what becomes of one position of the text: what is put in where
a part starts, and the unit itself unless a part covers it. For parts in order, the
loop writes what the positions become (`replaceAll_eq`), over the whole text or over a
block of it (`replaceAll_block`).
-/

namespace PiMono

/-- A part of a text, and what stands in its place. -/
structure Replacement (α : Type) where
  matchIndex : Nat
  matchLength : Nat
  newText : List α
  deriving DecidableEq

namespace Replacement

variable {α : Type}

/-- Where the part ends. -/
def stop (r : Replacement α) : Nat := r.matchIndex + r.matchLength

/-- The position is inside the part. -/
def covers (r : Replacement α) (p : Nat) : Bool := r.matchIndex ≤ p && p < r.stop

/-- The positions from `start` to `stop` are touched: the part, or the place of a part that
is empty, is among them. -/
def touches (r : Replacement α) (start stop : Nat) : Bool :=
  r.matchIndex < stop && start < max r.stop (r.matchIndex + 1)

/-- The part in a text that starts `offset` further to the right. -/
def shift (offset : Nat) (r : Replacement α) : Replacement α :=
  { r with matchIndex := r.matchIndex - offset }

end Replacement

section Replacements

variable {α : Type}

/-- One part replaced. -/
def replaceOne (r : Replacement α) (text : List α) : List α :=
  text.take r.matchIndex ++ r.newText ++ text.drop r.stop

/-- All parts replaced, the last one first. -/
def replaceAll (rs : List (Replacement α)) (text : List α) : List α := rs.foldr replaceOne text

/-- The parts follow each other from a position on. -/
def InOrder : Nat → List (Replacement α) → Prop
  | _, [] => True
  | start, r :: rs => start ≤ r.matchIndex ∧ InOrder r.stop rs

/-- What a position of the text becomes. -/
def rendered (text : List α) (rs : List (Replacement α)) (p : Nat) : List α :=
  (rs.filter (·.matchIndex = p)).flatMap (·.newText)
    ++ if rs.any (·.covers p) then [] else text[p]?.toList

variable {text : List α} {r : Replacement α} {rs : List (Replacement α)} {start p : Nat}

theorem InOrder.mono {start' : Nat} (h : InOrder start rs) (hle : start' ≤ start) :
    InOrder start' rs := by
  cases rs with
  | nil => exact h
  | cons r rs => exact ⟨hle.trans h.1, h.2⟩

theorem InOrder.le_matchIndex : ∀ {rs : List (Replacement α)} {start : Nat},
    InOrder start rs → ∀ r ∈ rs, start ≤ r.matchIndex
  | [], _, _, r, hr => by cases hr
  | r' :: rs, start, h, r, hr => by
    rcases List.mem_cons.mp hr with rfl | hr
    · exact h.1
    · have hle := InOrder.le_matchIndex h.2 r hr
      have hstop : r'.matchIndex ≤ r'.stop := Nat.le_add_right _ _
      have hstart := h.1
      omega

theorem InOrder.of_append : ∀ {as bs : List (Replacement α)} {start : Nat},
    InOrder start (as ++ bs) → InOrder start as
  | [], _, _, _ => trivial
  | _ :: _, _, _, h => ⟨h.1, InOrder.of_append h.2⟩

theorem InOrder.of_append_right {bs : List (Replacement α)} :
    ∀ {as : List (Replacement α)} {start : Nat}, InOrder start (as ++ bs) → InOrder 0 bs
  | [], _, h => h.mono (Nat.zero_le _)
  | _ :: _, _, h => InOrder.of_append_right h.2

/-! ## What a position becomes -/

theorem rendered_nil (text : List α) (p : Nat) : rendered text [] p = text[p]?.toList := rfl

/-- A part that neither starts at a position nor covers it. -/
theorem rendered_cons_of_far (hstart : r.matchIndex ≠ p) (hcovers : r.covers p = false) :
    rendered text (r :: rs) p = rendered text rs p := by
  rw [rendered, rendered, List.filter_cons, if_neg (by simpa using hstart), List.any_cons, hcovers,
    Bool.false_or]

/-- Only the parts that start at a position or cover it count. -/
theorem rendered_append (as bs : List (Replacement α))
    (has : ∀ r ∈ as, r.matchIndex ≠ p ∧ r.covers p = false) :
    rendered text (as ++ bs) p = rendered text bs p := by
  induction as with
  | nil => rfl
  | cons r as ih =>
    obtain ⟨hstart, hcovers⟩ := has r List.mem_cons_self
    rw [List.cons_append, rendered_cons_of_far hstart hcovers]
    exact ih fun r hr => has r (List.mem_cons_of_mem _ hr)

theorem rendered_append_left (as bs : List (Replacement α))
    (hbs : ∀ r ∈ bs, r.matchIndex ≠ p ∧ r.covers p = false) :
    rendered text (as ++ bs) p = rendered text as p := by
  have hfilter : bs.filter (·.matchIndex = p) = [] :=
    List.filter_eq_nil_iff.mpr fun r hr => by simpa using (hbs r hr).1
  have hany : bs.any (·.covers p) = false := by
    rw [List.any_eq_false]
    intro r hr
    simpa using (hbs r hr).2
  rw [rendered, rendered, List.filter_append, hfilter, List.append_nil, List.any_append, hany,
    Bool.or_false]

/-- A position that no part touches stays as it is. -/
theorem rendered_of_far (h : ∀ r ∈ rs, r.matchIndex ≠ p ∧ r.covers p = false) :
    rendered text rs p = text[p]?.toList := by
  have happend : rendered text (rs ++ []) p = rendered text [] p := rendered_append rs [] h
  rw [List.append_nil] at happend
  rw [happend, rendered_nil]

/-- The units of a block, one position after the other. -/
theorem flatMap_getElem? (text : List α) : ∀ n start, start + n ≤ text.length →
    (List.range' start n).flatMap (fun p => text[p]?.toList) = (text.drop start).take n
  | 0, start, _ => by simp
  | n + 1, start, h => by
    have hlt : start < text.length := by omega
    rw [List.range'_succ, List.flatMap_cons, flatMap_getElem? text n (start + 1) (by omega),
      List.getElem?_eq_getElem hlt, List.drop_eq_getElem_cons hlt, List.take_succ_cons]
    rfl

theorem flatMap_congr {β γ : Type} {f g : β → List γ} {xs : List β} (h : ∀ x ∈ xs, f x = g x) :
    xs.flatMap f = xs.flatMap g := by
  rw [List.flatMap_def, List.flatMap_def, List.map_congr_left h]

theorem any_congr_of_mem {β : Type} {f g : β → Bool} {xs : List β} (h : ∀ x ∈ xs, f x = g x) :
    xs.any f = xs.any g := by
  rw [Bool.eq_iff_iff, List.any_eq_true, List.any_eq_true]
  constructor
  · rintro ⟨x, hx, hf⟩
    exact ⟨x, hx, h x hx ▸ hf⟩
  · rintro ⟨x, hx, hg⟩
    exact ⟨x, hx, h x hx ▸ hg⟩

/-- The first of the parts in order: the text before it, its replacement, the rest. -/
theorem flatMap_rendered_cons (hstart : start ≤ r.matchIndex) (hrs : InOrder r.stop rs)
    (hlt : r.matchIndex < text.length) (hstop : r.stop ≤ text.length) :
    (List.range' start (text.length - start)).flatMap (rendered text (r :: rs))
      = (text.drop start).take (r.matchIndex - start) ++ r.newText
        ++ (List.range' r.stop (text.length - r.stop)).flatMap (rendered text rs) := by
  have hle : r.matchIndex ≤ r.stop := Nat.le_add_right _ _
  have hfollow : ∀ r' ∈ rs, r.stop ≤ r'.matchIndex := hrs.le_matchIndex
  -- in front of the part nothing happens
  have hbefore : (List.range' start (r.matchIndex - start)).flatMap (rendered text (r :: rs))
      = (text.drop start).take (r.matchIndex - start) := by
    rw [← flatMap_getElem? text _ _ (by omega)]
    refine flatMap_congr fun p hp => rendered_of_far fun r' hr' => ?_
    have hp' : p < r.matchIndex := by
      rw [List.mem_range'_1] at hp
      omega
    have hp'' : p < r'.matchIndex := by
      rcases List.mem_cons.mp hr' with rfl | hmem
      · exact hp'
      · have := hfollow r' hmem
        omega
    refine ⟨by omega, ?_⟩
    rw [Replacement.covers, Bool.and_eq_false_iff]
    exact .inl (by simpa using hp'')
  -- behind it only the others count
  have hafter : ∀ n, (List.range' (max r.stop (r.matchIndex + 1)) n).flatMap
        (rendered text (r :: rs))
      = (List.range' (max r.stop (r.matchIndex + 1)) n).flatMap (rendered text rs) := by
    intro n
    refine flatMap_congr fun p hp => ?_
    rw [List.mem_range'_1] at hp
    refine rendered_cons_of_far (by omega) ?_
    rw [Replacement.covers, Bool.and_eq_false_iff]
    exact .inr (by simp; omega)
  have hsplit : List.range' start (text.length - start)
      = List.range' start (r.matchIndex - start)
        ++ List.range' r.matchIndex (max r.stop (r.matchIndex + 1) - r.matchIndex)
        ++ List.range' (max r.stop (r.matchIndex + 1))
            (text.length - max r.stop (r.matchIndex + 1)) := by
    have h₁ : text.length - start = r.matchIndex - start + (text.length - r.matchIndex) := by omega
    have h₂ : text.length - r.matchIndex = max r.stop (r.matchIndex + 1) - r.matchIndex
        + (text.length - max r.stop (r.matchIndex + 1)) := by omega
    have h₃ : start + (r.matchIndex - start) = r.matchIndex := by omega
    have h₄ : r.matchIndex + (max r.stop (r.matchIndex + 1) - r.matchIndex)
        = max r.stop (r.matchIndex + 1) := by omega
    rw [h₁, ← List.range'_append_1, h₃, h₂, ← List.range'_append_1, h₄, List.append_assoc]
  rw [hsplit, List.flatMap_append, List.flatMap_append, hbefore, hafter, List.append_assoc,
    List.append_assoc]
  congr 1
  by_cases hempty : r.matchLength = 0
  · -- an empty part shares its position with the text behind it
    have hsame : r.stop = r.matchIndex := by rw [Replacement.stop, hempty, Nat.add_zero]
    have hmax : max r.stop (r.matchIndex + 1) = r.matchIndex + 1 := by omega
    have hone : r.matchIndex + 1 - r.matchIndex = 1 := by omega
    rw [hmax, hone, hsame]
    have hthis : rendered text (r :: rs) r.matchIndex
        = r.newText ++ rendered text rs r.matchIndex := by
      have hcovers : r.covers r.matchIndex = false := by
        rw [Replacement.covers, hsame]
        simp
      rw [rendered, rendered, List.filter_cons, if_pos (by simp), List.flatMap_cons, List.any_cons,
        hcovers, Bool.false_or, List.append_assoc]
    have hrest : text.length - r.matchIndex = 1 + (text.length - (r.matchIndex + 1)) := by omega
    rw [hrest, ← List.range'_append_1, List.flatMap_append, List.range'_one, List.flatMap_singleton,
      List.flatMap_singleton, hthis, List.append_assoc]
  · -- a part that is not empty covers its positions
    have hlt' : r.matchIndex < r.stop := by
      rw [Replacement.stop]
      omega
    have hmax : max r.stop (r.matchIndex + 1) = r.stop := by omega
    rw [hmax]
    congr 1
    have hpart : ∀ n, n ≤ r.matchLength →
        (List.range' (r.stop - n) n).flatMap (rendered text (r :: rs))
          = if n = r.matchLength then r.newText else [] := by
      intro n hn
      induction n with
      | zero =>
        rw [if_neg (by omega)]
        rfl
      | succ n ih =>
        have hnext : r.stop - (n + 1) + 1 = r.stop - n := by
          rw [Replacement.stop]
          omega
        have hcovers : r.covers (r.stop - (n + 1)) = true := by
          rw [Replacement.covers, Bool.and_eq_true, decide_eq_true_eq, decide_eq_true_eq,
            Replacement.stop]
          omega
        have hothers : rs.filter (·.matchIndex = r.stop - (n + 1)) = [] := by
          refine List.filter_eq_nil_iff.mpr fun r' hr' => ?_
          have := hfollow r' hr'
          simp
          omega
        rw [List.range'_succ, List.flatMap_cons, hnext, ih (by omega), if_neg (by omega),
          List.append_nil, rendered, List.any_cons, hcovers, Bool.true_or, if_pos rfl,
          List.append_nil, List.filter_cons, hothers]
        by_cases hfirst : n + 1 = r.matchLength
        · rw [if_pos hfirst, if_pos (by rw [Replacement.stop]; simp; omega), List.flatMap_singleton]
        · rw [if_neg hfirst, if_neg (by rw [Replacement.stop]; simp; omega), List.flatMap_nil]
    have hall := hpart r.matchLength (Nat.le_refl _)
    rw [if_pos rfl] at hall
    have hindex : r.stop - r.matchLength = r.matchIndex := by
      rw [Replacement.stop]
      omega
    have hlength : r.stop - r.matchIndex = r.matchLength := by
      rw [Replacement.stop]
      omega
    rw [hindex] at hall
    rw [hlength]
    exact hall

/-! ## What the loop writes -/

/-- The text up to the first part stays; from there on the positions become what they do. -/
theorem replaceAll_eq_append : ∀ {rs : List (Replacement α)} {start : Nat}, InOrder start rs →
    start ≤ text.length → (∀ r ∈ rs, r.matchIndex < text.length ∧ r.stop ≤ text.length) →
    replaceAll rs text = text.take start
      ++ (List.range' start (text.length - start)).flatMap (rendered text rs)
  | [], start, _, hle, _ => by
    show text = _
    have hsame : rendered text [] = fun p => text[p]?.toList := funext (rendered_nil text)
    have hrest : (text.drop start).take (text.length - start) = text.drop start :=
      List.take_of_length_le (by rw [List.length_drop])
    rw [hsame, flatMap_getElem? text _ _ (by omega), hrest, List.take_append_drop]
  | r :: rs, start, h, hle, hin => by
    obtain ⟨hlt, hstop⟩ := hin r List.mem_cons_self
    have ih := replaceAll_eq_append h.2 hstop fun r' hr' => hin r' (List.mem_cons_of_mem _ hr')
    have hindex : r.matchIndex ≤ r.stop := Nat.le_add_right _ _
    have htake : (text.take r.stop).take r.matchIndex = text.take r.matchIndex := by
      rw [List.take_take, Nat.min_eq_left hindex]
    have hfront : text.take r.matchIndex
        = text.take start ++ (text.drop start).take (r.matchIndex - start) := by
      rw [← List.take_add, Nat.add_sub_cancel' h.1]
    show replaceOne r (replaceAll rs text) = _
    rw [ih, replaceOne, flatMap_rendered_cons h.1 h.2 hlt hstop,
      List.take_append_of_le_length (by simp; omega), htake, hfront,
      List.drop_append_of_le_length (by simp; omega), List.drop_take, Nat.sub_self, List.take_zero,
      List.nil_append]
    simp only [List.append_assoc]

/-- The parts in order: every position becomes what it does. -/
theorem replaceAll_eq (h : InOrder 0 rs)
    (hin : ∀ r ∈ rs, r.matchIndex < text.length ∧ r.stop ≤ text.length) :
    replaceAll rs text = (List.range text.length).flatMap (rendered text rs) := by
  rw [replaceAll_eq_append h (Nat.zero_le _) hin, List.take_zero, List.nil_append, Nat.sub_zero,
    List.range_eq_range']

/-- The parts of a block, replaced in the block alone. -/
theorem replaceAll_block {stop : Nat} (h : InOrder start rs) (hstop : stop ≤ text.length)
    (hin : ∀ r ∈ rs, r.matchIndex < stop ∧ r.stop ≤ stop) :
    replaceAll (rs.map (·.shift start)) ((text.drop start).take (stop - start))
      = (List.range' start (stop - start)).flatMap (rendered text rs) := by
  have hlength : ((text.drop start).take (stop - start)).length = stop - start := by
    simp
    omega
  have horder : ∀ {rs : List (Replacement α)} {from' : Nat}, start ≤ from' → InOrder from' rs →
      InOrder (from' - start) (rs.map (·.shift start)) := by
    intro rs
    induction rs with
    | nil => exact fun _ _ => trivial
    | cons r rs ih =>
      intro from' hfrom hrs
      have hindex := hrs.1
      refine ⟨by show _ ≤ r.matchIndex - start; omega, ?_⟩
      have hrest := ih (by rw [Replacement.stop]; omega) hrs.2
      have hsame : r.stop - start = (r.shift start).stop := by
        rw [Replacement.stop, Replacement.stop, Replacement.shift]
        show _ = r.matchIndex - start + r.matchLength
        omega
      rw [hsame] at hrest
      exact hrest
  have hshifted := horder (Nat.le_refl start) h
  rw [Nat.sub_self] at hshifted
  have hfrom := h.le_matchIndex
  have hinside : ∀ r ∈ rs.map (·.shift start),
      r.matchIndex < ((text.drop start).take (stop - start)).length
        ∧ r.stop ≤ ((text.drop start).take (stop - start)).length := by
    intro r' hr'
    obtain ⟨r, hr, rfl⟩ := List.mem_map.mp hr'
    have h₁ := hfrom r hr
    have h₂ := hin r hr
    rw [Replacement.stop] at h₂
    rw [hlength, Replacement.stop]
    show r.matchIndex - start < _ ∧ r.matchIndex - start + r.matchLength ≤ _
    omega
  rw [replaceAll_eq hshifted hinside, hlength, List.range'_eq_map_range, List.flatMap_map]
  refine flatMap_congr fun p hp => ?_
  have hp' : p < stop - start := List.mem_range.mp hp
  have hfilter : (rs.map (·.shift start)).filter (·.matchIndex = p)
      = (rs.filter (·.matchIndex = start + p)).map (·.shift start) := by
    rw [List.filter_map]
    congr 1
    refine List.filter_congr fun r hr => ?_
    have := hfrom r hr
    show decide (r.matchIndex - start = p) = decide (r.matchIndex = start + p)
    exact decide_eq_decide.mpr (by omega)
  have hany : (rs.map (·.shift start)).any (·.covers p) = rs.any (·.covers (start + p)) := by
    rw [List.any_map]
    refine any_congr_of_mem fun r hr => ?_
    have := hfrom r hr
    show (decide (r.matchIndex - start ≤ p) && decide (p < r.matchIndex - start + r.matchLength))
      = (decide (r.matchIndex ≤ start + p) && decide (start + p < r.matchIndex + r.matchLength))
    congr 1 <;> exact decide_eq_decide.mpr (by omega)
  have htext : ((text.drop start).take (stop - start))[p]? = text[start + p]? := by
    rw [List.getElem?_take_of_lt hp', List.getElem?_drop]
  rw [rendered, rendered, hfilter, hany, htext, List.flatMap_map]
  rfl

end Replacements

end PiMono
