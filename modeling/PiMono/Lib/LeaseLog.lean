import Mathlib.Data.List.Basic
import Mathlib.Data.List.Induction

/-!
# Logs of leases and writes

What a lease is for: of the writes to a resource, each is made by the owner that
acquired the resource last. `Fenced` says so of a log of acquisitions and writes,
entry by entry; `Fenced.acquired_between` reads off that an owner whose lease was
taken over writes nothing until it acquires again.
-/

namespace PiMono

variable {κ ω : Type}

/-- An owner acquires a resource, or commits a write to it. -/
inductive LeaseEvent (κ ω : Type) where
  | acquired (resource : κ) (owner : ω)
  | committed (resource : κ) (owner : ω)
  deriving DecidableEq

variable [DecidableEq κ]

/-- The owner that acquired a resource last. -/
def lastOwner (resource : κ) (log : List (LeaseEvent κ ω)) : Option ω :=
  log.reverse.findSome? fun event =>
    match event with
    | .acquired r owner => if r = resource then some owner else none
    | .committed .. => none

/-- Every write is made by the owner that acquired last. -/
inductive Fenced : List (LeaseEvent κ ω) → Prop
  | nil : Fenced []
  | acquire {log : List (LeaseEvent κ ω)} (resource : κ) (owner : ω) : Fenced log →
    Fenced (log ++ [.acquired resource owner])
  | commit {log : List (LeaseEvent κ ω)} {resource : κ} {owner : ω} : Fenced log →
    lastOwner resource log = some owner → Fenced (log ++ [.committed resource owner])

variable {log pre mid post : List (LeaseEvent κ ω)} {resource : κ} {owner owner' : ω}

@[simp] theorem lastOwner_acquired (resource r : κ) (owner : ω) (log : List (LeaseEvent κ ω)) :
    lastOwner r (log ++ [.acquired resource owner])
      = if resource = r then some owner else lastOwner r log := by
  by_cases h : resource = r <;> simp [lastOwner, h]

@[simp] theorem lastOwner_committed (resource r : κ) (owner : ω) (log : List (LeaseEvent κ ω)) :
    lastOwner r (log ++ [.committed resource owner]) = lastOwner r log := by
  simp [lastOwner]

/-- Behind an acquisition the last owner is its owner, unless the resource is
acquired again. -/
theorem acquired_of_lastOwner
    (h : lastOwner resource (pre ++ .acquired resource owner :: mid) = some owner') :
    owner' = owner ∨ .acquired resource owner' ∈ mid := by
  induction mid using List.reverseRecOn with
  | nil =>
    left
    rw [lastOwner_acquired, if_pos rfl] at h
    exact (Option.some.inj h).symm
  | append_singleton mid event ih =>
    have happend : pre ++ .acquired resource owner :: (mid ++ [event])
        = (pre ++ .acquired resource owner :: mid) ++ [event] := by simp
    rw [happend] at h
    cases event with
    | acquired r o =>
      rw [lastOwner_acquired] at h
      split at h
      · rename_i hr
        obtain rfl := Option.some.inj h
        exact Or.inr (by simp [hr])
      · exact (ih h).imp_right (List.mem_append_left _)
    | committed r o =>
      rw [lastOwner_committed] at h
      exact (ih h).imp_right (List.mem_append_left _)

/-- The part of a log in front of a write ends with its owner as the last one. -/
theorem Fenced.lastOwner_of_committed (h : Fenced log)
    (hlog : log = pre ++ .committed resource owner :: post) :
    lastOwner resource pre = some owner := by
  induction h generalizing post with
  | nil => simp at hlog
  | @acquire log r o _ ih =>
    rcases List.eq_nil_or_concat post with rfl | ⟨init, last, rfl⟩
    · have := (List.append_inj' hlog rfl).2
      simp at this
    · rw [List.concat_eq_append, ← List.cons_append, ← List.append_assoc] at hlog
      exact ih (List.append_inj' hlog rfl).1
  | @commit log r o _ hlast ih =>
    rcases List.eq_nil_or_concat post with rfl | ⟨init, last, rfl⟩
    · obtain ⟨rfl, hevent⟩ := List.append_inj' hlog rfl
      obtain ⟨rfl, rfl⟩ : r = resource ∧ o = owner := by simpa using hevent
      exact hlast
    · rw [List.concat_eq_append, ← List.cons_append, ← List.append_assoc] at hlog
      exact ih (List.append_inj' hlog rfl).1

/-- **Fencing**: between an acquisition and a later write of another owner, that
owner acquires. -/
theorem Fenced.acquired_between (h : Fenced log)
    (hlog : log = pre ++ .acquired resource owner :: (mid ++ .committed resource owner' :: post)) :
    owner' = owner ∨ .acquired resource owner' ∈ mid := by
  have hlast : lastOwner resource (pre ++ .acquired resource owner :: mid) = some owner' := by
    have hsplit : log = (pre ++ .acquired resource owner :: mid)
        ++ .committed resource owner' :: post := by
      rw [hlog]
      simp
    exact h.lastOwner_of_committed hsplit
  exact acquired_of_lastOwner hlast

end PiMono
