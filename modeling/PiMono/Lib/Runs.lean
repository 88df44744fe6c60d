import Mathlib.Data.List.Basic

/-!
# Runs of a step function

A system that takes step after step is a function `step : σ → α → Option σ`; where it gives
nothing, the step cannot happen. A run is the fold of it over the steps. `Path` is the same for
a relation, for a log of events that some protocol allows.
-/

namespace PiMono.Runs

variable {σ α : Type} {step : σ → α → Option σ}

/-- What every step keeps, a run keeps. -/
theorem run_induction {P : σ → Prop} (hstep : ∀ s a t, P s → step s a = some t → P t) :
    ∀ (as : List α) {s t : σ}, P s → as.foldlM step s = some t → P t
  | [], s, t, h, hrun => Option.some.inj hrun ▸ h
  | a :: as, s, t, h, hrun => by
    rw [List.foldlM_cons] at hrun
    obtain ⟨s', hs', hrest⟩ := Option.bind_eq_some_iff.mp hrun
    exact run_induction hstep as (hstep s a s' h hs') hrest

/-- What every allowed step keeps, a run of allowed steps keeps. -/
theorem run_induction_if {P : σ → Prop} {safe : σ → α → Prop} [∀ s a, Decidable (safe s a)]
    (hstep : ∀ s a t, P s → safe s a → step s a = some t → P t) (as : List α) {s t : σ} (h : P s)
    (hrun : as.foldlM (fun s a => if safe s a then step s a else none) s = some t) : P t := by
  refine run_induction ?_ as h hrun
  intro s a t hs hstepped
  split at hstepped
  · rename_i hsafe
    exact hstep s a t hs hsafe hstepped
  · cases hstepped

/-- The events lead from one state of the protocol to another. -/
def Path {ε : Type} (next : σ → ε → σ → Prop) : σ → List ε → σ → Prop
  | s, [], t => s = t
  | s, e :: es, t => ∃ m, next s e m ∧ Path next m es t

theorem path_append {ε : Type} {next : σ → ε → σ → Prop} {t : σ} :
    ∀ {as bs : List ε} {s : σ}, Path next s (as ++ bs) t ↔
      ∃ m, Path next s as m ∧ Path next m bs t
  | [], bs, s => ⟨fun h => ⟨s, rfl, h⟩, fun ⟨_, hm, h⟩ => hm ▸ h⟩
  | e :: as, bs, s => by
    constructor
    · rintro ⟨m, hm, hrest⟩
      obtain ⟨n, hn, h⟩ := path_append.mp hrest
      exact ⟨n, ⟨m, hm, hn⟩, h⟩
    · rintro ⟨n, ⟨m, hm, hn⟩, h⟩
      exact ⟨m, hm, path_append.mpr ⟨n, hn, h⟩⟩

theorem path_concat {ε : Type} {next : σ → ε → σ → Prop} {es : List ε} {e : ε} {s m t : σ}
    (h : Path next s es m) (he : next m e t) : Path next s (es ++ [e]) t :=
  path_append.mpr ⟨m, h, t, he, rfl⟩

end PiMono.Runs
