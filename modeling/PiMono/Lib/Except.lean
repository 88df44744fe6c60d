/-!
# Computations that may throw

What a successful sequence of two computations was made of.
-/

namespace PiMono

variable {ε α β : Type}

theorem Except.bind_eq_ok {x : Except ε α} {f : α → Except ε β} {b : β} :
    (x >>= f) = .ok b ↔ ∃ a, x = .ok a ∧ f a = .ok b := by
  cases x with
  | error e =>
    constructor
    · intro h
      cases h
    · rintro ⟨a, h, -⟩
      cases h
  | ok a =>
    constructor
    · intro h
      exact ⟨a, rfl, h⟩
    · rintro ⟨_, h, hf⟩
      cases h
      exact hf

theorem Except.map_eq_ok {x : Except ε α} {f : α → β} {b : β} :
    x.map f = .ok b ↔ ∃ a, x = .ok a ∧ f a = b := by
  cases x with
  | error e => simp [Except.map]
  | ok a => simp [Except.map]

theorem Except.mapError_eq_ok {ε' : Type} {x : Except ε α} {f : ε → ε'} {a : α} :
    x.mapError f = .ok a ↔ x = .ok a := by
  cases x with
  | error e => exact iff_of_false (fun h => by cases h) (fun h => by cases h)
  | ok b => exact ⟨fun h => by cases h; rfl, fun h => by cases h; rfl⟩

/-! ## Lists of computations -/

variable {f : α → Except ε β} {as bs : List α} {xs ys : List β}

theorem Except.mapM_cons_eq_ok {a : α} : (a :: as).mapM f = .ok xs ↔
    ∃ x rest, f a = .ok x ∧ as.mapM f = .ok rest ∧ xs = x :: rest := by
  rw [List.mapM_cons, Except.bind_eq_ok]
  constructor
  · rintro ⟨x, hx, h⟩
    obtain ⟨rest, hrest, h⟩ := Except.bind_eq_ok.mp h
    exact ⟨x, rest, hx, hrest, (Except.ok.inj h).symm⟩
  · rintro ⟨x, rest, hx, hrest, rfl⟩
    exact ⟨x, hx, Except.bind_eq_ok.mpr ⟨rest, hrest, rfl⟩⟩

theorem Except.mapM_append_ok (has : as.mapM f = .ok xs) (hbs : bs.mapM f = .ok ys) :
    (as ++ bs).mapM f = .ok (xs ++ ys) := by
  induction as generalizing xs with
  | nil =>
    obtain rfl : [] = xs := Except.ok.inj has
    exact hbs
  | cons a as ih =>
    obtain ⟨x, rest, hx, hrest, rfl⟩ := Except.mapM_cons_eq_ok.mp has
    exact Except.mapM_cons_eq_ok.mpr ⟨x, rest ++ ys, hx, ih hrest, rfl⟩

theorem Except.mapM_ok_of_mem (h : as.mapM f = .ok xs) : ∀ a ∈ as, ∃ x, f a = .ok x := by
  induction as generalizing xs with
  | nil => exact fun _ hmem => absurd hmem List.not_mem_nil
  | cons a as ih =>
    obtain ⟨x, rest, hx, hrest, rfl⟩ := Except.mapM_cons_eq_ok.mp h
    exact List.forall_mem_cons.mpr ⟨⟨x, hx⟩, ih hrest⟩

theorem Except.mem_of_mapM_ok (h : as.mapM f = .ok xs) : ∀ x ∈ xs, ∃ a ∈ as, f a = .ok x := by
  induction as generalizing xs with
  | nil =>
    obtain rfl : [] = xs := Except.ok.inj h
    exact fun _ hmem => absurd hmem List.not_mem_nil
  | cons a as ih =>
    obtain ⟨x, rest, hx, hrest, rfl⟩ := Except.mapM_cons_eq_ok.mp h
    refine List.forall_mem_cons.mpr ⟨⟨a, List.mem_cons_self, hx⟩, ?_⟩
    intro y hy
    obtain ⟨b, hb, hfb⟩ := ih hrest y hy
    exact ⟨b, List.mem_cons_of_mem _ hb, hfb⟩

theorem Except.mapM_error {e : ε} (h : as.mapM f = .error e) : ∃ a ∈ as, f a = .error e := by
  induction as with
  | nil => cases h
  | cons a as ih =>
    cases ha : f a with
    | error e' =>
      rw [List.mapM_cons, ha] at h
      exact ⟨a, List.mem_cons_self, by rw [← Except.error.inj h]; exact ha⟩
    | ok x =>
      cases hrest : as.mapM f with
      | error e' =>
        rw [List.mapM_cons, ha, hrest] at h
        obtain ⟨b, hb, hfb⟩ := ih (hrest.trans (congrArg _ (Except.error.inj h)))
        exact ⟨b, List.mem_cons_of_mem _ hb, hfb⟩
      | ok rest =>
        rw [List.mapM_cons, ha, hrest] at h
        cases h

end PiMono
