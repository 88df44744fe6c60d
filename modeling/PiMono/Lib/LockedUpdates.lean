import Mathlib.Logic.Function.Basic
import PiMono.Lib.Runs

/-!
# Updates under one lock

A shared content is changed by updates, each a function of what it has read; it may be missing
in the beginning. `Serial` says what running some of them one after the other leaves.
`OneHolder` says that the parties whose phase is one behind the lock are those that hold it,
and `Accounted` that the updates that count are those whose phase says so.
-/

namespace PiMono.LockedUpdates

/-- What an update answers to the content. -/
inductive Reply (γ : Type) where
  | throws
  | keeps
  | writes (next : γ)
  deriving DecidableEq

/-- What an answer leaves behind. -/
def Reply.after {γ : Type} (current : Option γ) : Reply γ → Option γ
  | writes next => some next
  | _ => current

section Serial

variable {ι γ : Type} (fn : ι → Option γ → Reply γ)

/-- The updates run one after the other, and each of them writes. -/
def Serial : Option γ → List ι → Option γ → Prop
  | current, [], final => current = final
  | current, p :: order, final =>
    ∃ next, fn p current = .writes next ∧ Serial (some next) order final

variable {fn}

theorem serial_concat {p : ι} {next : γ} : ∀ {order : List ι} {first current : Option γ},
    Serial fn first order current → fn p current = .writes next →
    Serial fn first (order ++ [p]) (some next)
  | [], _, _, h, hp => by
    cases h
    exact ⟨next, hp, rfl⟩
  | _ :: _, _, _, ⟨middle, hq, hrest⟩, hp => ⟨middle, hq, serial_concat hrest hp⟩

/-- Updates that add a piece each leave their pieces in their order. -/
theorem serial_pieces {α : Type} (piece : ι → α)
    {fn : ι → Option (List α) → Reply (List α)}
    (hfn : ∀ p current, fn p current = .writes (current.getD [] ++ [piece p])) :
    ∀ {order : List ι} {first final : Option (List α)}, Serial fn first order final →
      final.getD [] = first.getD [] ++ order.map piece
  | [], _, _, h => by
    cases h
    simp
  | p :: order, first, final, ⟨next, hp, hrest⟩ => by
    rw [hfn] at hp
    cases hp
    rw [serial_pieces piece hfn hrest]
    simp

/-- What running some updates one after the other leaves; not all of them need to write. -/
def runAll (fn : ι → Option γ → Reply γ) (current : Option γ) (order : List ι) : Option γ :=
  order.foldl (fun current p => (fn p current).after current) current

theorem runAll_concat (current : Option γ) (order : List ι) (p : ι) :
    runAll fn current (order ++ [p])
      = (fn p (runAll fn current order)).after (runAll fn current order) := by
  unfold runAll
  rw [List.foldl_append]
  rfl

end Serial

section OneHolder

variable {ι φ : Type} (holds : φ → Bool)

/-- The parties in a phase behind the lock are those that hold it. -/
def OneHolder (holder : Option ι) (phase : ι → φ) : Prop :=
  ∀ p, holds (phase p) = true ↔ holder = some p

variable {holds} {phase : ι → φ} {holder : Option ι} {p q : ι} {x : φ}

namespace OneHolder

theorem only (h : OneHolder holds holder phase) (hp : holds (phase p) = true)
    (hq : holds (phase q) = true) : p = q :=
  Option.some.inj (((h p).mp hp).symm.trans ((h q).mp hq))

theorem free (h : OneHolder holds none phase) (p : ι) : holds (phase p) = false := by
  cases hp : holds (phase p) with
  | false => rfl
  | true => cases (h p).mp hp

variable [DecidableEq ι]

theorem acquire (h : OneHolder holds none phase) (hx : holds x = true) :
    OneHolder holds (some p) (Function.update phase p x) := by
  intro q
  rw [Function.update_apply]
  by_cases hqp : q = p
  · rw [if_pos hqp, hqp]
    exact ⟨fun _ => rfl, fun _ => hx⟩
  · rw [if_neg hqp, h.free q]
    exact ⟨nofun, fun hc => absurd (Option.some.inj hc).symm hqp⟩

theorem keep (h : OneHolder holds holder phase) (hx : holds x = holds (phase p)) :
    OneHolder holds holder (Function.update phase p x) := by
  intro q
  rw [Function.update_apply]
  by_cases hqp : q = p
  · rw [if_pos hqp, hx, hqp]
    exact h p
  · rw [if_neg hqp]
    exact h q

theorem release (h : OneHolder holds holder phase) (hp : holds (phase p) = true)
    (hx : holds x = false) : OneHolder holds none (Function.update phase p x) := by
  intro q
  rw [Function.update_apply]
  by_cases hqp : q = p
  · rw [if_pos hqp, hx]
    exact ⟨fun hc => (Bool.false_ne_true hc).elim, fun hc => by cases hc⟩
  · rw [if_neg hqp]
    exact ⟨fun hc => absurd (h.only hc hp) hqp, fun hc => by cases hc⟩

end OneHolder

end OneHolder

/-- A content, its lock, and the phases of the parties; `order` lists the updates that count. -/
structure Shared (ι φ γ : Type) where
  file : Option γ
  holder : Option ι
  phase : ι → φ
  order : List ι

namespace Shared

variable {ι φ γ : Type} [DecidableEq ι]

def setPhase (s : Shared ι φ γ) (p : ι) (x : φ) : Shared ι φ γ :=
  { s with phase := Function.update s.phase p x }

/-- The lock is taken, if it is free. -/
def lock (s : Shared ι φ γ) (p : ι) (held failed : φ) : Shared ι φ γ :=
  if s.holder = none then { s.setPhase p held with holder := some p } else s.setPhase p failed

def unlock (s : Shared ι φ γ) (p : ι) (x : φ) : Shared ι φ γ :=
  { s.setPhase p x with holder := none }

/-- An update counts from now on. -/
def count (s : Shared ι φ γ) (p : ι) (x : φ) : Shared ι φ γ :=
  { s.setPhase p x with order := s.order ++ [p] }

theorem setPhase_phase (s : Shared ι φ γ) (p q : ι) (x : φ) :
    (s.setPhase p x).phase q = if q = p then x else s.phase q :=
  Function.update_apply ..

end Shared

/-- The lock is held by whom it seems, and the updates that count are in the order. -/
structure Accounted {ι φ γ : Type} (holds counted : φ → Bool) (s : Shared ι φ γ) : Prop where
  holder : OneHolder holds s.holder s.phase
  order : ∀ p, p ∈ s.order ↔ counted (s.phase p) = true
  nodup : s.order.Nodup

namespace Accounted

variable {ι φ γ : Type} {holds counted : φ → Bool} {s : Shared ι φ γ} {p : ι} {x : φ}

theorem initial (file : Option γ) {x : φ} (hholds : holds x = false)
    (hcounted : counted x = false) :
    Accounted holds counted (⟨file, none, fun _ => x, []⟩ : Shared ι φ γ) where
  holder := fun _ => ⟨fun h => absurd (hholds.symm.trans h) Bool.false_ne_true, fun h => by cases h⟩
  order := fun _ =>
    ⟨fun h => absurd h List.not_mem_nil, fun h => absurd (hcounted.symm.trans h) Bool.false_ne_true⟩
  nodup := List.nodup_nil

/-- The others do not hold what one holds. -/
theorem other (h : Accounted holds counted s) (hp : holds (s.phase p) = true) {q : ι}
    (hqp : q ≠ p) :
    holds (s.phase q) = false := by
  cases hq : holds (s.phase q) with
  | false => rfl
  | true => exact absurd (h.holder.only hq hp) hqp

variable [DecidableEq ι]

theorem order_setPhase (h : Accounted holds counted s)
    (hx : counted x = counted (s.phase p)) (q : ι) :
    q ∈ s.order ↔ counted ((s.setPhase p x).phase q) = true := by
  rw [Shared.setPhase_phase]
  by_cases hqp : q = p
  · rw [if_pos hqp, hx, hqp]
    exact h.order p
  · rw [if_neg hqp]
    exact h.order q

theorem setPhase (h : Accounted holds counted s) (hholds : holds x = holds (s.phase p))
    (hcounted : counted x = counted (s.phase p)) : Accounted holds counted (s.setPhase p x) where
  holder := h.holder.keep hholds
  order := h.order_setPhase hcounted
  nodup := h.nodup

theorem lock (h : Accounted holds counted s) {held failed : φ}
    (hidle : holds (s.phase p) = false)
    (hheld : holds held = true ∧ counted held = counted (s.phase p))
    (hfailed : holds failed = false ∧ counted failed = counted (s.phase p)) :
    Accounted holds counted (s.lock p held failed) := by
  unfold Shared.lock
  by_cases hfree : s.holder = none
  · rw [if_pos hfree]
    have hnone := h.holder
    rw [hfree] at hnone
    exact ⟨hnone.acquire hheld.1, h.order_setPhase hheld.2, h.nodup⟩
  · rw [if_neg hfree]
    exact h.setPhase (hfailed.1.trans hidle.symm) hfailed.2

theorem unlock (h : Accounted holds counted s) (hp : holds (s.phase p) = true)
    (hx : holds x = false) (hcounted : counted x = counted (s.phase p)) :
    Accounted holds counted (s.unlock p x) where
  holder := h.holder.release hp hx
  order := h.order_setPhase hcounted
  nodup := h.nodup

theorem count (h : Accounted holds counted s) (hp : counted (s.phase p) = false)
    (hholds : holds x = holds (s.phase p)) (hx : counted x = true) :
    Accounted holds counted (s.count p x) where
  holder := h.holder.keep hholds
  order := fun q => by
    show q ∈ s.order ++ [p] ↔ counted ((s.setPhase p x).phase q) = true
    rw [Shared.setPhase_phase, List.mem_append, List.mem_singleton]
    by_cases hqp : q = p
    · rw [if_pos hqp]
      exact ⟨fun _ => hx, fun _ => .inr hqp⟩
    · rw [if_neg hqp, ← h.order q]
      exact ⟨fun hc => hc.resolve_right hqp, .inl⟩
  nodup := by
    refine List.nodup_append.mpr ⟨h.nodup, List.pairwise_singleton _ p, ?_⟩
    intro a ha b hb hab
    rw [List.mem_singleton] at hb
    have hmem : p ∈ s.order := hb ▸ hab ▸ ha
    rw [h.order p, hp] at hmem
    cases hmem

end Accounted

end PiMono.LockedUpdates
