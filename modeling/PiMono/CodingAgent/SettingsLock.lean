import PiMono.Lib.LockedUpdates

/-!
# The settings file

`FileSettingsStorage.withLock` of `packages/coding-agent/src/core/settings-manager.ts`, as the
steps that its calls take on the file system, in any number of processes. A call that finds no
file runs its callback before it takes the lock (`lockingLate`); `updates_serialize` says when
the updates serialize all the same.
-/

namespace PiMono.CodingAgent.SettingsLock

open LockedUpdates

/-- `maxAttempts` -/
def maxAttempts : Nat := 10

/-- How far a call of `withLock` is, with its local variables. -/
inductive Phase (γ : Type) where
  -- not called
  | idle
  -- `acquireLockSyncWithRetry`, as the file exists
  | locking (attempt : Nat)
  -- `readFileSync`
  | reading
  -- `fn(current)`; whether `release` is set
  | calling (current : Option γ) (locked : Bool)
  -- `acquireLockSyncWithRetry`, as `release` is not set
  | lockingLate (attempt : Nat) (current : Option γ) (next : γ)
  -- `writeFileSync`
  | writing (current : Option γ) (next : γ)
  -- `release()`
  | releasing (next : Option γ) (thrown : Bool)
  -- returned or thrown, with what the callback has returned
  | done (next : Option γ) (thrown : Bool)
  deriving DecidableEq

namespace Phase

variable {γ : Type}

/-- The lock is held. -/
def locked : Phase γ → Bool
  | reading | writing _ _ | releasing _ _ => true
  | calling _ locked => locked
  | _ => false

/-- The call is not made or over. -/
def settled : Phase γ → Bool
  | idle | done _ _ => true
  | _ => false

/-- The callback has returned a value, and the write has been tried. -/
def returned : Phase γ → Bool
  | releasing next _ | done next _ => next.isSome
  | _ => false

end Phase

/-- The file, the lock, and the calls; `order` lists the calls that have written. -/
abbrev State (ι γ : Type) := Shared ι (Phase γ) γ

/-- No call has been made. -/
def initial {ι γ : Type} (file : Option γ) : State ι γ := ⟨file, none, fun _ => .idle, []⟩

/-- An attempt to take the lock: the call has it, or tries again, or throws. -/
def acquireLockSyncWithRetry {ι γ : Type} [DecidableEq ι] (s : State ι γ) (p : ι) (attempt : Nat)
    (held again thrown : Phase γ) : State ι γ :=
  s.lock p held (if attempt < maxAttempts then again else thrown)

section Steps

variable {ι γ : Type} [DecidableEq ι] (fn : ι → Option γ → Reply γ)

/-- The next step of a call; `none` once it is over. -/
def step (s : State ι γ) (p : ι) : Option (State ι γ) :=
  match s.phase p with
  | .idle =>
    -- `existsSync(path)`
    some (s.setPhase p (if s.file.isSome then .locking 1 else .calling none false))
  | .locking attempt =>
    some (acquireLockSyncWithRetry s p attempt .reading (.locking (attempt + 1)) (.done none true))
  | .reading =>
    some (s.setPhase p (if s.file.isSome then .calling s.file true else .releasing none true))
  | .calling current locked =>
    match fn p current with
    | .throws => some (s.setPhase p (if locked then .releasing none true else .done none true))
    | .keeps => some (s.setPhase p (if locked then .releasing none false else .done none false))
    | .writes next =>
      some (s.setPhase p (if locked then .writing current next else .lockingLate 1 current next))
  | .lockingLate attempt current next =>
    some (acquireLockSyncWithRetry s p attempt (.writing current next)
      (.lockingLate (attempt + 1) current next) (.done (some next) true))
  | .writing _ next =>
    some { s.count p (.releasing (some next) false) with file := some next }
  | .releasing next thrown => some (s.unlock p (.done next thrown))
  | .done _ _ => none

/-- A call that has found no file takes the lock while there is none, and does take it. -/
def inTime (s : State ι γ) (p : ι) : Bool :=
  match s.phase p with
  | .lockingLate attempt _ _ =>
    if s.holder.isNone then s.file.isNone else decide (attempt < maxAttempts)
  | _ => true

/-- A run, as the calls whose steps they are. -/
def run (s : State ι γ) (ps : List ι) : Option (State ι γ) := ps.foldlM (step fn) s

/-- A run in which no call comes late. -/
def runInTime (s : State ι γ) (ps : List ι) : Option (State ι γ) :=
  ps.foldlM (fun s p => if inTime s p then step fn s p else none) s

end Steps

/-! ## The invariant -/

section Invariant

variable {ι γ : Type} [DecidableEq ι] {fn : ι → Option γ → Reply γ}

/-- What a call knows. -/
def Knows (fn : ι → Option γ → Reply γ) (file : Option γ) (p : ι) : Phase γ → Prop
  | .calling current locked => current = if locked then file else none
  | .lockingLate _ current next => current = none ∧ fn p none = .writes next
  | .writing current next => current = file ∧ fn p file = .writes next
  | _ => True

/-- The calls that have written have done it one after the other. -/
structure Inv (fn : ι → Option γ → Reply γ) (first : Option γ) (s : State ι γ) : Prop where
  accounted : Accounted Phase.locked Phase.returned s
  knows : ∀ p, Knows fn s.file p (s.phase p)
  serial : Serial fn first s.order s.file

omit [DecidableEq ι] in
theorem inv_initial (fn : ι → Option γ → Reply γ) (first : Option γ) :
    Inv fn first (initial (ι := ι) first) where
  accounted := .initial first rfl rfl
  knows := fun _ => trivial
  serial := rfl

variable {first : Option γ} {s : State ι γ} {p : ι} {x : Phase γ}

/-- What a call knows stands while the others move. -/
theorem knows_setPhase (h : Inv fn first s) (hx : Knows fn s.file p x) (q : ι) :
    Knows fn s.file q ((s.setPhase p x).phase q) := by
  rw [Shared.setPhase_phase]
  by_cases hqp : q = p
  · rw [if_pos hqp, hqp]
    exact hx
  · rw [if_neg hqp]
    exact h.knows q

/-- A step that leaves the file and the lock alone. -/
theorem Inv.setPhase (h : Inv fn first s) (hlocked : x.locked = (s.phase p).locked)
    (hreturned : x.returned = (s.phase p).returned) (hknows : Knows fn s.file p x) :
    Inv fn first (s.setPhase p x) :=
  ⟨h.accounted.setPhase hlocked hreturned, knows_setPhase h hknows, h.serial⟩

/-- The lock is taken, or not. -/
theorem Inv.lock (h : Inv fn first s) {held failed : Phase γ}
    (hidle : (s.phase p).locked = false) (hnot : (s.phase p).returned = false)
    (hheld : s.holder = none → held.locked = true ∧ held.returned = false ∧ Knows fn s.file p held)
    (hfailed : s.holder ≠ none →
      failed.locked = false ∧ failed.returned = false ∧ Knows fn s.file p failed) :
    Inv fn first (s.lock p held failed) := by
  by_cases hfree : s.holder = none
  · obtain ⟨hlocked, hreturned, hknows⟩ := hheld hfree
    have hlock : Accounted Phase.locked Phase.returned (s.lock p held (s.phase p)) :=
      h.accounted.lock hidle ⟨hlocked, hreturned.trans hnot.symm⟩ ⟨hidle, rfl⟩
    unfold Shared.lock at hlock ⊢
    rw [if_pos hfree] at hlock ⊢
    exact ⟨hlock, knows_setPhase h hknows, h.serial⟩
  · obtain ⟨hlocked, hreturned, hknows⟩ := hfailed hfree
    unfold Shared.lock
    rw [if_neg hfree]
    exact h.setPhase (hlocked.trans hidle.symm) (hreturned.trans hnot.symm) hknows

/-- The holder of the lock writes what it has made of the content of the file. -/
theorem Inv.write (h : Inv fn first s) {current : Option γ} {next : γ}
    (hphase : s.phase p = .writing current next) :
    Inv fn first { s.count p (.releasing (some next) false) with file := some next } := by
  have hlocked : (s.phase p).locked = true := by rw [hphase]; rfl
  obtain ⟨-, hfn⟩ : current = s.file ∧ fn p s.file = .writes next := by
    have hknows := h.knows p
    rw [hphase] at hknows
    exact hknows
  have hcount : Accounted Phase.locked Phase.returned (s.count p (.releasing (some next) false)) :=
    h.accounted.count (by rw [hphase]; rfl) (by rw [hphase]; rfl) rfl
  refine ⟨⟨hcount.holder, hcount.order, hcount.nodup⟩, fun q => ?_, serial_concat h.serial hfn⟩
  show Knows fn (some next) q ((s.setPhase p _).phase q)
  rw [Shared.setPhase_phase]
  by_cases hqp : q = p
  · rw [if_pos hqp]
    trivial
  · -- the others do not hold the lock, and know nothing of the file
    rw [if_neg hqp]
    have hother := h.accounted.other hlocked hqp
    have hknows := h.knows q
    cases hq : s.phase q with
    | calling current locked =>
      rw [hq] at hknows hother
      cases locked with
      | true => cases hother
      | false => exact hknows
    | lockingLate attempt current next =>
      rw [hq] at hknows
      exact hknows
    | writing current next =>
      rw [hq] at hother
      cases hother
    | _ => trivial

theorem Inv.release (h : Inv fn first s) {next : Option γ} {thrown : Bool}
    (hphase : s.phase p = .releasing next thrown) :
    Inv fn first (s.unlock p (.done next thrown)) :=
  ⟨h.accounted.unlock (by rw [hphase]; rfl) rfl (by rw [hphase]; rfl), knows_setPhase h trivial,
    h.serial⟩

/-- Every step in time keeps the invariant. -/
theorem Inv.step {t : State ι γ} (h : Inv fn first s) (htime : inTime s p = true)
    (hstep : step fn s p = some t) : Inv fn first t := by
  unfold SettingsLock.step at hstep
  unfold inTime at htime
  have hknows := h.knows p
  split at hstep <;> rename_i hphase <;> simp only [hphase] at htime hknows
  · -- `existsSync(path)`
    cases hstep
    split
    · exact h.setPhase (by rw [hphase]; rfl) (by rw [hphase]; rfl) trivial
    · exact h.setPhase (by rw [hphase]; rfl) (by rw [hphase]; rfl) rfl
  · cases hstep
    refine h.lock (by rw [hphase]; rfl) (by rw [hphase]; rfl) (fun _ => ⟨rfl, rfl, trivial⟩)
      fun _ => ?_
    split <;> exact ⟨rfl, rfl, trivial⟩
  · cases hstep
    split
    · exact h.setPhase (by rw [hphase]; rfl) (by rw [hphase]; rfl) rfl
    · exact h.setPhase (by rw [hphase]; rfl) (by rw [hphase]; rfl) trivial
  · -- the callback
    rename_i current locked
    have hcurrent : current = if locked then s.file else none := hknows
    split at hstep <;> rename_i hfn <;> cases hstep <;> cases locked
    · exact h.setPhase (by rw [hphase]; rfl) (by rw [hphase]; rfl) trivial
    · exact h.setPhase (by rw [hphase]; rfl) (by rw [hphase]; rfl) trivial
    · exact h.setPhase (by rw [hphase]; rfl) (by rw [hphase]; rfl) trivial
    · exact h.setPhase (by rw [hphase]; rfl) (by rw [hphase]; rfl) trivial
    · subst hcurrent
      exact h.setPhase (by rw [hphase]; rfl) (by rw [hphase]; rfl) ⟨rfl, hfn⟩
    · subst hcurrent
      exact h.setPhase (by rw [hphase]; rfl) (by rw [hphase]; rfl) ⟨rfl, hfn⟩
  · -- a call that has found no file: there is none yet
    rename_i attempt current next
    obtain ⟨rfl, hfn⟩ : current = none ∧ fn p none = .writes next := hknows
    cases hstep
    refine h.lock (by rw [hphase]; rfl) (by rw [hphase]; rfl) (fun hfree => ?_) fun hheld => ?_
    · rw [hfree] at htime
      have hfile : s.file = none := Option.isNone_iff_eq_none.mp htime
      refine ⟨rfl, rfl, ?_⟩
      rw [hfile]
      exact ⟨rfl, hfn⟩
    · obtain ⟨q, hq⟩ := Option.ne_none_iff_exists'.mp hheld
      rw [hq] at htime
      rw [if_pos (of_decide_eq_true htime)]
      exact ⟨rfl, rfl, rfl, hfn⟩
  · cases hstep
    exact h.write hphase
  · cases hstep
    exact h.release hphase
  · cases hstep

theorem inv_runInTime {ps : List ι} {t : State ι γ} (h : Inv fn first s)
    (hrun : runInTime fn s ps = some t) : Inv fn first t := by
  refine Runs.run_induction (P := Inv fn first) ?_ ps h hrun
  intro s p t hs hstep
  split at hstep
  · rename_i htime
    exact hs.step htime hstep
  · cases hstep

/-- **Updates serialize.** In every run in which no call that has found no file comes late, once
all calls are over, the file holds what the callbacks that have returned a value leave if they
run one after the other. -/
theorem updates_serialize (fn : ι → Option γ → Reply γ) (first : Option γ) (ps : List ι)
    (t : State ι γ) (hrun : runInTime fn (initial first) ps = some t)
    (hover : ∀ p, (t.phase p).settled = true) :
    ∃ order : List ι, order.Nodup ∧
      (∀ p, p ∈ order ↔ ∃ next thrown, t.phase p = .done (some next) thrown) ∧
      Serial fn first order t.file := by
  have h := inv_runInTime (inv_initial fn first) hrun
  refine ⟨t.order, h.accounted.nodup, fun p => ?_, h.serial⟩
  rw [h.accounted.order p]
  have hsettled := hover p
  cases hphase : t.phase p with
  | done next thrown =>
    cases next with
    | none => exact ⟨nofun, nofun⟩
    | some next => exact ⟨fun _ => ⟨next, thrown, rfl⟩, fun _ => rfl⟩
  | idle => exact ⟨nofun, nofun⟩
  | _ =>
    rw [hphase] at hsettled
    cases hsettled

end Invariant

/-! ## Two calls that find no file -/

/-- Each call sets a field of its own. -/
def setField (p : Bool) (current : Option (List Bool)) : Reply (List Bool) :=
  .writes (current.getD [] ++ [p])

/-- Both calls keep their field: the file is there. -/
theorem updates_serialize_sample :
    ∃ order : List Bool, order.Nodup ∧ (∀ p, p ∈ order) ∧
      Serial setField (some []) order (some [true, false]) := by
  have hrun : ∃ t, runInTime setField (initial (some []))
      [true, false, true, true, true, false, true, true, false, false, false, false,
        false] = some t ∧
      (∀ p, t.phase p = .done (some (if p then [true] else [true, false])) false) ∧
      t.file = some [true, false] := by
    refine ⟨_, rfl, ?_, rfl⟩
    decide
  obtain ⟨t, hrun, hphase, hfile⟩ := hrun
  obtain ⟨order, hnodup, hmem, hserial⟩ := updates_serialize setField (some []) _ t hrun
    fun p => by rw [hphase p]; rfl
  exact ⟨order, hnodup, fun p => (hmem p).mpr ⟨_, _, hphase p⟩, hfile ▸ hserial⟩

/-- Two calls find no file: the second to write has not read what the first has written. -/
theorem updates_not_serialized :
    ∃ t, run setField (initial none)
        [true, false, true, true, true, true, false, false, false, false] = some t ∧
      (∀ p, (t.phase p).settled = true ∧ ∃ next thrown, t.phase p = .done (some next) thrown) ∧
      ¬ ∃ order : List Bool, (∀ p, p ∈ order) ∧ Serial setField none order t.file := by
  obtain ⟨t, hrun, hphase, hfile⟩ : ∃ t, run setField (initial none)
      [true, false, true, true, true, true, false, false, false, false] = some t ∧
      (∀ p, t.phase p = .done (some [p]) false) ∧ t.file = some [false] := by
    refine ⟨_, rfl, ?_, rfl⟩
    decide
  refine ⟨t, hrun, fun p => ⟨by rw [hphase p]; rfl, _, _, hphase p⟩, ?_⟩
  rintro ⟨order, hall, hserial⟩
  have hpieces := serial_pieces id (fun _ _ => rfl) hserial
  rw [hfile] at hpieces
  have htrue := hall true
  rw [show order = [false] by simpa using hpieces.symm] at htrue
  simp at htrue

end PiMono.CodingAgent.SettingsLock
