import PiMono.Lib.LockedUpdates

/-!
# The auth file

`FileAuthStorageBackend` of `packages/coding-agent/src/core/auth-storage.ts`: `withLock` and
`withLockAsync`, as the steps that their calls take on the file system, in any number of
processes. A call that finds no file makes an empty one before it takes the lock (`creating`);
`callbacks_serialize` says when no credential is lost by that.
-/

namespace PiMono.CodingAgent.AuthFile

open LockedUpdates

/-- `maxAttempts` -/
def maxAttempts : Nat := 10

/-- How far a call is, with its local variables. -/
inductive Phase (γ : Type) where
  -- not called
  | idle
  -- `ensureFileExists` has found no file
  | creating
  -- `acquireLockSyncWithRetry`, `acquireLockAsync`
  | locking (attempt : Nat)
  -- `release` is set
  | locked
  -- `existsSync` has found the file
  | reading
  -- `fn(current)`
  | calling (current : Option γ)
  -- `writeFileSync`
  | writing (current : Option γ) (next : γ)
  -- `release()`
  | releasing (ran : Bool) (thrown : Bool)
  -- returned or thrown; whether the callback has run, and was not cancelled
  | done (ran : Bool) (thrown : Bool)
  deriving DecidableEq

namespace Phase

variable {γ : Type}

/-- The lock is held. -/
def holds : Phase γ → Bool
  | locked | reading | calling _ | writing _ _ | releasing _ _ => true
  | _ => false

/-- The callback has run, and what it has returned is written. -/
def ran : Phase γ → Bool
  | releasing ran _ | done ran _ => ran
  | _ => false

end Phase

/-- The file, the lock, and the calls; `order` lists the calls whose callback has run. -/
abbrev State (ι γ : Type) := Shared ι (Phase γ) γ

/-- No call has been made. -/
def initial {ι γ : Type} (file : Option γ) : State ι γ := ⟨file, none, fun _ => .idle, []⟩

/-- The calls: those of `withLockAsync`, their callbacks, and `"{}"`. -/
structure Calls (ι γ : Type) where
  async : ι → Bool
  fn : ι → Option γ → Reply γ
  empty : γ

inductive Action (ι : Type) where
  -- the next step of a call
  | advance (p : ι)
  -- a call of `withLockAsync` finds that its signal is aborted
  | cancel (p : ι)
  -- a call of `withLockAsync` has waited for the lock until its deadline
  | expire (p : ι)

section Steps

variable {ι γ : Type} [DecidableEq ι] (calls : Calls ι γ)

/-- The next step of a call; `none` once it is over. -/
def advance (s : State ι γ) (p : ι) : Option (State ι γ) :=
  match s.phase p with
  | .idle =>
    -- `ensureFileExists`
    some (s.setPhase p (if s.file.isSome then .locking 1 else .creating))
  | .creating => some { s.setPhase p (.locking 1) with file := some calls.empty }
  | .locking attempt =>
    some (s.lock p .locked
      (if calls.async p || attempt < maxAttempts then .locking (attempt + 1) else .done false true))
  | .locked => some (s.setPhase p (if s.file.isSome then .reading else .calling none))
  | .reading => some
      (s.setPhase p (if s.file.isSome then .calling s.file else .releasing false true))
  | .calling current =>
    match calls.fn p current with
    | .throws => some (s.count p (.releasing true true))
    | .keeps => some (s.count p (.releasing true false))
    | .writes next => some (s.setPhase p (.writing current next))
  | .writing _ next => some { s.count p (.releasing true false) with file := some next }
  | .releasing ran thrown => some (s.unlock p (.done ran thrown))
  | .done _ _ => none

/-- `signal.throwIfAborted()`: in front of the lock, behind it, and behind the callback. -/
def cancel (s : State ι γ) (p : ι) : Option (State ι γ) :=
  if calls.async p then
    match s.phase p with
    | .idle | .locking _ => some (s.setPhase p (.done false true))
    | .locked | .calling _ => some (s.setPhase p (.releasing false true))
    | _ => none
  else none

/-- `remainingMs <= 0` -/
def expire (s : State ι γ) (p : ι) : Option (State ι γ) :=
  match s.phase p with
  | .locking _ =>
    if calls.async p ∧ s.holder ≠ none then some (s.setPhase p (.done false true)) else none
  | _ => none

def step (s : State ι γ) : Action ι → Option (State ι γ)
  | .advance p => advance calls s p
  | .cancel p => cancel calls s p
  | .expire p => expire calls s p

/-- The empty file replaces nothing. -/
def inTime [DecidableEq γ] (s : State ι γ) : Action ι → Bool
  | .advance p =>
    match s.phase p with
    | .creating => s.file.all (· = calls.empty)
    | _ => true
  | _ => true

/-- A run. -/
def run (s : State ι γ) (actions : List (Action ι)) : Option (State ι γ) :=
  actions.foldlM (step calls) s

/-- A run in which no empty file replaces anything. -/
def runInTime [DecidableEq γ] (s : State ι γ) (actions : List (Action ι)) : Option (State ι γ) :=
  actions.foldlM (fun s a => if inTime calls s a then step calls s a else none) s

end Steps

/-! ## The invariant -/

section Invariant

variable {ι γ : Type} [DecidableEq ι] {calls : Calls ι γ}

/-- What a call knows of the file. -/
def Knows (calls : Calls ι γ) (file : Option γ) (p : ι) : Phase γ → Prop
  | .locking _ | .locked | .reading => file.isSome = true
  | .calling current => current = file ∧ file.isSome = true
  | .writing current next => current = file ∧ file.isSome = true ∧ calls.fn p file = .writes next
  | _ => True

/-- The callbacks that have run have done it one after the other. -/
structure Inv (calls : Calls ι γ) (first : Option γ) (s : State ι γ) : Prop where
  accounted : Accounted Phase.holds Phase.ran s
  knows : ∀ p, Knows calls s.file p (s.phase p)
  serial : some (s.file.getD calls.empty)
    = runAll calls.fn (some (first.getD calls.empty)) s.order

omit [DecidableEq ι] in
theorem inv_initial (calls : Calls ι γ) (first : Option γ) :
    Inv calls first (initial (ι := ι) first) where
  accounted := .initial first rfl rfl
  knows := fun _ => trivial
  serial := rfl

variable {first : Option γ} {s : State ι γ} {p : ι} {x : Phase γ}

/-- What a call knows stands while the others move. -/
theorem knows_setPhase (h : Inv calls first s) (hx : Knows calls s.file p x) (q : ι) :
    Knows calls s.file q ((s.setPhase p x).phase q) := by
  rw [Shared.setPhase_phase]
  by_cases hqp : q = p
  · rw [if_pos hqp, hqp]
    exact hx
  · rw [if_neg hqp]
    exact h.knows q

/-- A step that leaves the file and the lock alone. -/
theorem Inv.setPhase (h : Inv calls first s) (hholds : x.holds = (s.phase p).holds)
    (hran : x.ran = (s.phase p).ran) (hknows : Knows calls s.file p x) :
    Inv calls first (s.setPhase p x) :=
  ⟨h.accounted.setPhase hholds hran, knows_setPhase h hknows, h.serial⟩

/-- The empty file replaces nothing, and everybody knows of it. -/
theorem Inv.create (h : Inv calls first s) (hphase : s.phase p = .creating)
    (hfile : ∀ content ∈ s.file, content = calls.empty) :
    Inv calls first { s.setPhase p (.locking 1) with file := some calls.empty } := by
  have hempty : s.file.getD calls.empty = calls.empty := by
    cases hc : s.file with
    | none => rfl
    | some content => exact hfile content hc
  have haccounted : Accounted Phase.holds Phase.ran (s.setPhase p (.locking 1)) :=
    h.accounted.setPhase (by rw [hphase]; rfl) (by rw [hphase]; rfl)
  refine ⟨⟨haccounted.holder, haccounted.order, haccounted.nodup⟩, fun q => ?_, ?_⟩
  · show Knows calls (some calls.empty) q ((s.setPhase p _).phase q)
    rw [Shared.setPhase_phase]
    by_cases hqp : q = p
    · rw [if_pos hqp]
      exact rfl
    · -- whoever has read the file has read the empty one
      rw [if_neg hqp]
      have hknows := h.knows q
      cases hq : s.phase q with
      | calling current =>
        rw [hq] at hknows
        obtain ⟨content, hcontent⟩ := Option.isSome_iff_exists.mp hknows.2
        refine ⟨?_, rfl⟩
        rw [hknows.1, hcontent, hfile content hcontent]
      | writing current next =>
        rw [hq] at hknows
        obtain ⟨content, hcontent⟩ := Option.isSome_iff_exists.mp hknows.2.1
        have hsame : s.file = some calls.empty := by rw [hcontent, hfile content hcontent]
        rw [← hsame]
        exact hknows
      | locking attempt => exact rfl
      | locked => exact rfl
      | reading => exact rfl
      | _ => trivial
  · show some calls.empty = runAll calls.fn _ s.order
    rw [← h.serial, hempty]

theorem Inv.lock (h : Inv calls first s) {failed : Phase γ} (hholds : (s.phase p).holds = false)
    (hran : (s.phase p).ran = false) (hfile : s.file.isSome = true)
    (hfailed : failed.holds = false ∧ failed.ran = false ∧ Knows calls s.file p failed) :
    Inv calls first (s.lock p .locked failed) := by
  have hlock : Accounted Phase.holds Phase.ran (s.lock p .locked failed) :=
    h.accounted.lock hholds ⟨rfl, hran.symm⟩ ⟨hfailed.1, hfailed.2.1.trans hran.symm⟩
  unfold Shared.lock at hlock ⊢
  by_cases hfree : s.holder = none
  · rw [if_pos hfree] at hlock ⊢
    exact ⟨hlock, knows_setPhase h hfile, h.serial⟩
  · rw [if_neg hfree] at hlock ⊢
    exact ⟨hlock, knows_setPhase h hfailed.2.2, h.serial⟩

/-- A callback has run, and there is nothing to write. -/
theorem Inv.count (h : Inv calls first s) {current : Option γ} {thrown : Bool}
    (hphase : s.phase p = .calling current)
    (hkeeps : (calls.fn p current).after current = current) :
    Inv calls first (s.count p (.releasing true thrown)) := by
  obtain ⟨hcurrent, hfile⟩ : current = s.file ∧ s.file.isSome = true := by
    have hknows := h.knows p
    rw [hphase] at hknows
    exact hknows
  obtain ⟨content, hcontent⟩ := Option.isSome_iff_exists.mp hfile
  have hserial := h.serial
  rw [hcontent, Option.getD_some] at hserial
  rw [hcurrent, hcontent] at hkeeps
  refine ⟨h.accounted.count (by rw [hphase]; rfl) (by rw [hphase]; rfl) rfl,
    knows_setPhase h trivial, ?_⟩
  show some (s.file.getD calls.empty) = runAll calls.fn _ (s.order ++ [p])
  rw [runAll_concat, ← hserial, hcontent, Option.getD_some, hkeeps]

/-- The holder of the lock writes what its callback has made of the content of the file. -/
theorem Inv.write (h : Inv calls first s) {current : Option γ} {next : γ}
    (hphase : s.phase p = .writing current next) :
    Inv calls first { s.count p (.releasing true false) with file := some next } := by
  have hholds : (s.phase p).holds = true := by rw [hphase]; rfl
  obtain ⟨-, hfile, hfn⟩ :
      current = s.file ∧ s.file.isSome = true ∧ calls.fn p s.file = .writes next := by
    have hknows := h.knows p
    rw [hphase] at hknows
    exact hknows
  obtain ⟨content, hcontent⟩ := Option.isSome_iff_exists.mp hfile
  have hserial := h.serial
  rw [hcontent, Option.getD_some] at hserial
  have hcount : Accounted Phase.holds Phase.ran (s.count p (.releasing true false)) :=
    h.accounted.count (by rw [hphase]; rfl) (by rw [hphase]; rfl) rfl
  refine ⟨⟨hcount.holder, hcount.order, hcount.nodup⟩, fun q => ?_, ?_⟩
  · show Knows calls (some next) q ((s.setPhase p _).phase q)
    rw [Shared.setPhase_phase]
    by_cases hqp : q = p
    · rw [if_pos hqp]
      trivial
    · -- the others do not hold the lock, and know at most that there is a file
      rw [if_neg hqp]
      have hother := h.accounted.other hholds hqp
      cases hq : s.phase q with
      | calling current =>
        rw [hq] at hother
        cases hother
      | writing current next =>
        rw [hq] at hother
        cases hother
      | locking attempt => exact rfl
      | locked => exact rfl
      | reading => exact rfl
      | _ => trivial
  · show some next = runAll calls.fn _ (s.order ++ [p])
    rw [runAll_concat, ← hserial, ← hcontent, hfn]
    rfl

theorem Inv.unlock (h : Inv calls first s) {ran thrown : Bool}
    (hphase : s.phase p = .releasing ran thrown) :
    Inv calls first (s.unlock p (.done ran thrown)) :=
  ⟨h.accounted.unlock (by rw [hphase]; rfl) rfl (by rw [hphase]; rfl), knows_setPhase h trivial,
    h.serial⟩

theorem Inv.advance [DecidableEq γ] {t : State ι γ} (h : Inv calls first s)
    (htime : inTime calls s (.advance p) = true) (hstep : AuthFile.advance calls s p = some t) :
    Inv calls first t := by
  unfold AuthFile.advance at hstep
  unfold inTime at htime
  have hknows := h.knows p
  split at hstep <;> rename_i hphase <;> simp only [hphase] at htime hknows
  · -- `existsSync`
    cases hstep
    split
    · rename_i hfile
      exact h.setPhase (by rw [hphase]; rfl) (by rw [hphase]; rfl) hfile
    · exact h.setPhase (by rw [hphase]; rfl) (by rw [hphase]; rfl) trivial
  · cases hstep
    refine h.create hphase fun content hcontent => ?_
    rw [hcontent] at htime
    exact of_decide_eq_true htime
  · cases hstep
    refine h.lock (by rw [hphase]; rfl) (by rw [hphase]; rfl) hknows ?_
    split
    · exact ⟨rfl, rfl, hknows⟩
    · exact ⟨rfl, rfl, trivial⟩
  · -- nobody takes a file away
    cases hstep
    have hfile : s.file.isSome = true := hknows
    rw [if_pos hfile]
    exact h.setPhase (by rw [hphase]; rfl) (by rw [hphase]; rfl) hfile
  · cases hstep
    have hfile : s.file.isSome = true := hknows
    rw [if_pos hfile]
    exact h.setPhase (by rw [hphase]; rfl) (by rw [hphase]; rfl) ⟨rfl, hfile⟩
  · -- the callback
    rename_i current
    obtain ⟨rfl, hfile⟩ : current = s.file ∧ s.file.isSome = true := hknows
    split at hstep <;> rename_i hfn <;> cases hstep
    · exact h.count hphase (by rw [hfn]; rfl)
    · exact h.count hphase (by rw [hfn]; rfl)
    · exact h.setPhase (by rw [hphase]; rfl) (by rw [hphase]; rfl) ⟨rfl, hfile, hfn⟩
  · cases hstep
    exact h.write hphase
  · cases hstep
    exact h.unlock hphase
  · cases hstep

theorem Inv.cancel {t : State ι γ} (h : Inv calls first s)
    (hstep : AuthFile.cancel calls s p = some t) : Inv calls first t := by
  unfold AuthFile.cancel at hstep
  split at hstep
  · split at hstep <;> rename_i hphase
    · cases hstep
      exact h.setPhase (by rw [hphase]; rfl) (by rw [hphase]; rfl) trivial
    · cases hstep
      exact h.setPhase (by rw [hphase]; rfl) (by rw [hphase]; rfl) trivial
    · cases hstep
      exact h.setPhase (by rw [hphase]; rfl) (by rw [hphase]; rfl) trivial
    · cases hstep
      exact h.setPhase (by rw [hphase]; rfl) (by rw [hphase]; rfl) trivial
    · cases hstep
  · cases hstep

theorem Inv.expire {t : State ι γ} (h : Inv calls first s)
    (hstep : AuthFile.expire calls s p = some t) : Inv calls first t := by
  unfold AuthFile.expire at hstep
  split at hstep
  · rename_i hphase
    split at hstep
    · cases hstep
      exact h.setPhase (by rw [hphase]; rfl) (by rw [hphase]; rfl) trivial
    · cases hstep
  · cases hstep

theorem inv_runInTime [DecidableEq γ] {actions : List (Action ι)} {t : State ι γ}
    (h : Inv calls first s) (hrun : runInTime calls s actions = some t) : Inv calls first t := by
  refine Runs.run_induction (P := Inv calls first) ?_ actions h hrun
  intro s a t hs hstep
  split at hstep
  · rename_i htime
    cases a with
    | advance p => exact hs.advance htime hstep
    | cancel p => exact hs.cancel hstep
    | expire p => exact hs.expire hstep
  · cases hstep

/-- **No credential is lost.** In every run in which no empty file replaces anything, a callback
is called with the content of the file, which is what the callbacks before it have left; and once
all calls are over, the file holds what all callbacks leave that have run and were not cancelled,
one after the other. -/
theorem callbacks_serialize [DecidableEq γ] (calls : Calls ι γ) (first : Option γ)
    (actions : List (Action ι)) (t : State ι γ)
    (hrun : runInTime calls (initial first) actions = some t) :
    (∀ p current, t.phase p = .calling current → current = t.file) ∧
      ∃ order : List ι, order.Nodup ∧ (∀ p, p ∈ order ↔ (t.phase p).ran = true) ∧
        some (t.file.getD calls.empty) = runAll calls.fn (some (first.getD calls.empty)) order := by
  have h := inv_runInTime (inv_initial calls first) hrun
  refine ⟨fun p current hphase => ?_, t.order, h.accounted.nodup, h.accounted.order, h.serial⟩
  have hknows := h.knows p
  rw [hphase] at hknows
  exact hknows.1

end Invariant

/-! ## A first use by two processes -/

/-- Two calls, each of which adds a credential of its own. -/
def additions : Calls Bool (List Bool) :=
  ⟨fun p => p, fun p current => .writes (current.getD [] ++ [p]), []⟩

/-- One after the other, both credentials are kept. -/
theorem callbacks_serialize_sample :
    ∃ order : List Bool, order.Nodup ∧ (∀ p, p ∈ order) ∧
      some [true, false] = runAll additions.fn (some []) order := by
  obtain ⟨t, hrun, hphase, hfile⟩ : ∃ t, runInTime additions (initial none)
      ((List.replicate 8 true ++ List.replicate 7 false).map .advance) = some t ∧
      (∀ p, t.phase p = .done true false) ∧ t.file = some [true, false] := by
    refine ⟨_, rfl, ?_, rfl⟩
    decide
  obtain ⟨-, order, hnodup, hmem, hserial⟩ := callbacks_serialize additions none _ t hrun
  rw [hfile] at hserial
  exact ⟨order, hnodup, fun p => (hmem p).mpr (by rw [hphase p]; rfl), hserial⟩

/-- Both calls find no file: the empty file of the second replaces what the first has written. -/
theorem credentials_lost :
    ∃ t, run additions (initial none)
        (([true, false] ++ List.replicate 7 true ++ List.replicate 7 false).map .advance) = some t ∧
      (∀ p, t.phase p = .done true false) ∧
      ¬ ∃ order : List Bool, (∀ p, p ∈ order) ∧ t.file = runAll additions.fn (some []) order := by
  obtain ⟨t, hrun, hphase, hfile⟩ : ∃ t, run additions (initial none)
        (([true, false] ++ List.replicate 7 true ++ List.replicate 7 false).map .advance) = some t ∧
      (∀ p, t.phase p = .done true false) ∧ t.file = some [false] := by
    refine ⟨_, rfl, ?_, rfl⟩
    decide
  refine ⟨t, hrun, hphase, ?_⟩
  rintro ⟨order, hall, hserial⟩
  have hpieces : ∀ (order : List Bool) (current : List Bool),
      runAll additions.fn (some current) order = some (current ++ order) := by
    intro order
    induction order with
    | nil => exact fun current => by rw [List.append_nil]; rfl
    | cons p order ih =>
      intro current
      show runAll additions.fn (some (current ++ [p])) order = _
      rw [ih, List.append_assoc]
      rfl
  rw [hfile, hpieces] at hserial
  have htrue := hall true
  have horder : [false] = order := Option.some.inj hserial
  rw [← horder] at htrue
  simp at htrue

end PiMono.CodingAgent.AuthFile
