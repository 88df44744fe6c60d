import PiMono.Agent.Proxy

/-!
# The consumers of an event stream

`EventStream` (`packages/ai/src/utils/event-stream.ts`) with its queue, the promises that consumers
wait for and any number of iterators, whose steps come between `push` and `end` in any order. What
an iterator does behind its `await` is a step of its own, which comes some time after its promise
was resolved. A consumer asks for the next event when it has the last one, and one that breaks its
loop takes no further step. The stream refines `PiMono.Agent.Proxy.EventStream`, which keeps every
event that was taken in.
-/

namespace PiMono.Ai

structure EventStream (ε ρ : Type) where
  queue : List ε
  -- the iterators at their `await`, those whose promise was resolved, and those at their `return`
  waiting : List Nat
  resolved : List (Nat × Option ε)
  returned : List Nat
  done : Bool
  finalResult : Option ρ
  -- which iterator was given what, and what was yielded
  given : List (Nat × ε)
  yielded : List (Nat × ε)

namespace EventStream

variable {ε ρ : Type} (extractResult : ε → Option ρ)

def new : EventStream ε ρ := ⟨[], [], [], [], false, none, [], []⟩

/-- `extractResult` gives the result of an event that `isComplete`; a promise resolves once. -/
def complete (s : EventStream ε ρ) (event : ε) : EventStream ε ρ :=
  match extractResult event with
  | some result => { s with done := true, finalResult := s.finalResult.or (some result) }
  | none => s

/-- To the first that waits, or to the queue. -/
def deliver (s : EventStream ε ρ) (event : ε) : EventStream ε ρ :=
  match s.waiting with
  | i :: waiting =>
    { s with
      waiting := waiting
      resolved := s.resolved ++ [(i, some event)]
      given := s.given ++ [(i, event)] }
  | [] => { s with queue := s.queue ++ [event] }

def push (s : EventStream ε ρ) (event : ε) : EventStream ε ρ :=
  if s.done then s else (s.complete extractResult event).deliver event

/-- `end(result?)` -/
def finish (s : EventStream ε ρ) (result : Option ρ) : EventStream ε ρ :=
  { s with
    done := true
    finalResult := s.finalResult.or result
    waiting := []
    resolved := s.resolved ++ s.waiting.map fun i => (i, none) }

/-- `next()` of an iterator at a `yield`: a round of its loop, up to the `yield`, the `return` or
the `await`. -/
def next (s : EventStream ε ρ) (i : Nat) : EventStream ε ρ :=
  if i ∈ s.waiting ++ s.resolved.map Prod.fst ∨ i ∈ s.returned then s
  else
    match s.queue with
    | event :: queue =>
      { s with
        queue := queue
        given := s.given ++ [(i, event)]
        yielded := s.yielded ++ [(i, event)] }
    | [] =>
      if s.done then { s with returned := s.returned ++ [i] }
      else { s with waiting := s.waiting ++ [i] }

/-- What an iterator does behind its `await`. -/
def resume (s : EventStream ε ρ) (i : Nat) : EventStream ε ρ :=
  let t := { s with resolved := removeField s.resolved i }
  match fieldValue? s.resolved i with
  | some (some event) => { t with yielded := s.yielded ++ [(i, event)] }
  | some none => { t with returned := s.returned ++ [i] }
  | none => s

inductive Action (ε ρ : Type) where
  | push (event : ε)
  | finish (result : Option ρ)
  | next (i : Nat)
  | resume (i : Nat)

def step (s : EventStream ε ρ) : Action ε ρ → EventStream ε ρ
  | .push event => s.push extractResult event
  | .finish result => s.finish result
  | .next i => s.next i
  | .resume i => s.resume i

def run (actions : List (Action ε ρ)) : EventStream ε ρ := actions.foldl (step extractResult) new

/-! ## What holds in every run -/

/-- The events of one iterator. -/
def eventsOf (i : Nat) (events : List (Nat × ε)) : List ε :=
  events.filterMap fun e => if e.1 = i then some e.2 else none

/-- The event that an iterator has been given and has not yielded yet. -/
def held (s : EventStream ε ρ) (i : Nat) : Option ε := (fieldValue? s.resolved i).join

structure Inv (s : EventStream ε ρ) : Prop where
  -- nothing is queued while somebody waits
  queue : s.waiting ≠ [] → s.queue = []
  result : s.done = false → s.finalResult = none
  ended : (∃ i, (i, none) ∈ s.resolved) ∨ s.returned ≠ [] → s.done = true ∧ s.queue = []
  once : (s.waiting ++ s.resolved.map Prod.fst).Nodup
  given : ∀ i, eventsOf i s.given = eventsOf i s.yielded ++ (s.held i).toList

@[simp] theorem eventsOf_append (i : Nat) (events more : List (Nat × ε)) :
    eventsOf i (events ++ more) = eventsOf i events ++ eventsOf i more := List.filterMap_append

theorem eventsOf_singleton (i j : Nat) (event : ε) :
    eventsOf i [(j, event)] = if j = i then [event] else [] := by
  by_cases hj : j = i <;> simp [eventsOf, hj]

theorem fieldValue?_concat {α : Type} (fields : List (Nat × α)) (j : Nat) (v : α) (i : Nat) :
    fieldValue? (fields ++ [(j, v)]) i =
      (fieldValue? fields i).or (if j = i then some v else none) := by
  rw [fieldValue?, List.find?_append, Option.map_or]
  by_cases hj : j = i <;> simp [fieldValue?, hj]

variable {s : EventStream ε ρ}

theorem Inv.complete (hi : Inv s) (event : ε) : Inv (s.complete extractResult event) := by
  rw [EventStream.complete]
  split
  · exact ⟨hi.queue, nofun, fun h => ⟨rfl, (hi.ended h).2⟩, hi.once, hi.given⟩
  · exact hi

theorem Inv.deliver (hi : Inv s) (hopen : ¬ ((∃ i, (i, none) ∈ s.resolved) ∨ s.returned ≠ []))
    (event : ε) : Inv (s.deliver event) := by
  obtain ⟨hnone, hreturned⟩ := not_or.mp hopen
  have honce := hi.once
  rw [EventStream.deliver]
  cases hwaiting : s.waiting with
  | nil =>
    rw [hwaiting] at honce
    exact ⟨fun h => absurd rfl h, hi.result, fun h => absurd h hopen, honce, hi.given⟩
  | cons i waiting =>
    have hqueue : s.queue = [] := hi.queue (by rw [hwaiting]; exact List.cons_ne_nil _ _)
    rw [hwaiting, List.cons_append, List.nodup_cons] at honce
    have hfree : fieldValue? s.resolved i = none :=
      fieldValue?_eq_none fun h => honce.1 (List.mem_append_right _ h)
    refine ⟨fun _ => hqueue, hi.result, ?_, ?_, fun j => ?_⟩
    · rintro (⟨j, hj⟩ | h)
      · rcases List.mem_append.mp hj with hj | hj
        · exact absurd ⟨j, hj⟩ hnone
        · cases List.mem_singleton.mp hj
      · exact absurd h hreturned
    · simp only [List.map_append, List.map_cons, List.map_nil, ← List.append_assoc]
      rw [(List.perm_append_singleton i _).nodup_iff]
      exact List.nodup_cons.mpr honce
    · show eventsOf j (s.given ++ [(i, event)]) = _ ++ (Option.join _).toList
      rw [fieldValue?_concat, eventsOf_append, hi.given, eventsOf_singleton, held]
      by_cases hj : i = j
      · subst hj
        rw [hfree, if_pos rfl, if_pos rfl]
        simp
      · rw [if_neg hj, if_neg hj, Option.or_none, List.append_nil]

theorem Inv.push (hi : Inv s) (event : ε) : Inv (s.push extractResult event) := by
  rw [EventStream.push]
  split
  · exact hi
  · rename_i hdone
    refine (hi.complete extractResult event).deliver (fun h => hdone ?_) event
    refine (hi.ended ?_).1
    rw [EventStream.complete] at h
    split at h <;> exact h

theorem Inv.finish (hi : Inv s) (result : Option ρ) : Inv (s.finish result) := by
  have honce := hi.once
  refine ⟨fun h => absurd rfl h, nofun, ?_, ?_, fun i => ?_⟩
  · rintro (⟨i, h⟩ | h)
    · rcases List.mem_append.mp h with h | h
      · exact ⟨rfl, (hi.ended (.inl ⟨i, h⟩)).2⟩
      · obtain ⟨j, hj, -⟩ := List.mem_map.mp h
        exact ⟨rfl, hi.queue (List.ne_nil_of_mem hj)⟩
    · exact ⟨rfl, (hi.ended (.inr h)).2⟩
  · simp only [EventStream.finish, List.nil_append, List.map_append, List.map_map]
    refine (List.perm_append_comm.nodup_iff).mp ?_
    simpa [Function.comp_def] using honce
  · rw [show (s.finish result).given = s.given from rfl, hi.given]
    show _ ++ (s.held i).toList = _ ++ ((s.finish result).held i).toList
    rw [held, held, EventStream.finish, fieldValue?, fieldValue?, List.find?_append, Option.map_or]
    cases s.resolved.find? (·.1 = i) with
    | some r => rfl
    | none =>
      cases hfind : (s.waiting.map fun i => (i, (none : Option ε))).find? (·.1 = i) with
      | none => rfl
      | some r =>
        obtain ⟨j, -, rfl⟩ := List.mem_map.mp (List.mem_of_find?_eq_some hfind)
        rfl

theorem Inv.next (hi : Inv s) (i : Nat) : Inv (s.next i) := by
  rw [EventStream.next]
  split
  · exact hi
  · rename_i hfree
    obtain ⟨hfree, -⟩ := not_or.mp hfree
    split
    · rename_i event queue hqueue
      have hheld : s.held i = none := by
        rw [held, fieldValue?_eq_none fun h => hfree (List.mem_append_right _ h)]
        rfl
      refine ⟨fun h => ?_, hi.result, fun h => ?_, hi.once, fun j => ?_⟩
      · rw [hi.queue h] at hqueue
        cases hqueue
      · rw [(hi.ended h).2] at hqueue
        cases hqueue
      · rw [eventsOf_append, eventsOf_append, hi.given, eventsOf_singleton]
        show _ = _ ++ _ ++ (s.held j).toList
        by_cases hj : i = j
        · subst hj
          rw [hheld, if_pos rfl]
          simp
        · rw [if_neg hj, List.append_nil, List.append_nil]
    · rename_i hqueue
      split
      · rename_i hdone
        exact ⟨hi.queue, hi.result, fun _ => ⟨hdone, hqueue⟩, hi.once, hi.given⟩
      · refine ⟨fun _ => hqueue, hi.result, hi.ended, ?_, hi.given⟩
        rw [List.append_assoc]
        refine List.perm_middle.nodup_iff.mpr ?_
        exact List.nodup_cons.mpr ⟨hfree, hi.once⟩

theorem Inv.resume (hi : Inv s) (i : Nat) : Inv (s.resume i) := by
  have honce : (s.waiting ++ (removeField s.resolved i).map Prod.fst).Nodup :=
    hi.once.sublist ((List.filter_sublist.map Prod.fst).append_left _)
  have hheld : ∀ j, (fieldValue? (removeField s.resolved i) j).join =
      if i = j then none else s.held j := by
    intro j
    rw [fieldValue?_removeField, held]
    split <;> rfl
  have hended : (∃ j, (j, none) ∈ removeField s.resolved i) ∨ s.returned ≠ [] →
      s.done = true ∧ s.queue = [] := by
    rintro (⟨j, hj⟩ | h)
    · exact hi.ended (.inl ⟨j, List.mem_of_mem_filter hj⟩)
    · exact hi.ended (.inr h)
  rw [EventStream.resume]
  cases hfield : fieldValue? s.resolved i with
  | none => exact hi
  | some event? =>
    have hi' : s.held i = event? := by rw [held, hfield]; rfl
    cases event? with
    | none =>
      have hdone := hi.ended (.inl ⟨i, mem_of_fieldValue? hfield⟩)
      refine ⟨hi.queue, hi.result, fun _ => hdone, honce, fun j => ?_⟩
      rw [hi.given]
      show _ = _ ++ (Option.join _).toList
      rw [hheld]
      by_cases hj : i = j
      · rw [if_pos hj, ← hj, hi']
      · rw [if_neg hj]
    | some event =>
      refine ⟨hi.queue, hi.result, hended, honce, fun j => ?_⟩
      show eventsOf j s.given = eventsOf j (s.yielded ++ [(i, event)]) ++ (Option.join _).toList
      rw [hi.given, eventsOf_append, eventsOf_singleton, hheld]
      by_cases hj : i = j
      · rw [if_pos hj, if_pos hj, ← hj, hi']
        exact (List.append_nil _).symm
      · rw [if_neg hj, if_neg hj, List.append_nil]

theorem Inv.step (hi : Inv s) (a : Action ε ρ) : Inv (step extractResult s a) := by
  cases a with
  | push event => exact hi.push extractResult event
  | finish result => exact hi.finish result
  | next i => exact hi.next i
  | resume i => exact hi.resume i

/-- **What was taken in**: what was given to iterators, whichever they are, and then the queue. -/
def abs (s : EventStream ε ρ) : Agent.Proxy.EventStream ε ρ :=
  ⟨s.given.map Prod.snd ++ s.queue, s.done, s.finalResult⟩

/-- What an action is to the stream that keeps every event. -/
def absStep (s : Agent.Proxy.EventStream ε ρ) : Action ε ρ → Agent.Proxy.EventStream ε ρ
  | .push event => s.push extractResult event
  | .finish result => { s.close with result := s.result.or result }
  | .next _ | .resume _ => s

theorem abs_step (hi : Inv s) (a : Action ε ρ) :
    (step extractResult s a).abs = absStep extractResult s.abs a := by
  cases a with
  | push event =>
    have hqueue := hi.queue
    cases hdone : s.done with
    | true => simp [step, push, absStep, Agent.Proxy.EventStream.push, abs, hdone]
    | false =>
      have hresult := hi.result hdone
      cases hevent : extractResult event <;> cases hwaiting : s.waiting <;>
        simp_all [step, push, complete, deliver, absStep, Agent.Proxy.EventStream.push, abs]
  | finish result => rfl
  | next i =>
    simp only [step, next, absStep]
    split
    · rfl
    · split
      case h_1 hqueue => simp [abs, hqueue]
      case h_2 => split <;> rfl
  | resume i =>
    simp only [step, resume, absStep]
    split <;> rfl

/-- With one iterator nobody waits once the stream is done. -/
structure Alone (k : Nat) (s : EventStream ε ρ) : Prop where
  waiting : s.waiting = [] ∨ s.waiting = [k]
  done : s.done = true → s.waiting = []

theorem Alone.step {k : Nat} (h : Alone k s) {a : Action ε ρ}
    (ha : ∀ i, a = .next i → i = k) : Alone k (step extractResult s a) := by
  obtain ⟨hwaiting, hdone⟩ := h
  cases a with
  | push event =>
    simp only [EventStream.step, EventStream.push]
    split
    · exact ⟨hwaiting, hdone⟩
    · cases hevent : extractResult event <;> obtain hwaiting | hwaiting := hwaiting <;>
        constructor <;> simp_all [complete, deliver]
  | finish result => exact ⟨.inl rfl, fun _ => rfl⟩
  | resume i =>
    simp only [EventStream.step, EventStream.resume]
    split <;> exact ⟨hwaiting, hdone⟩
  | next i =>
    obtain rfl := ha i rfl
    simp only [EventStream.step, EventStream.next]
    split
    · exact ⟨hwaiting, hdone⟩
    · split
      · exact ⟨hwaiting, hdone⟩
      · split <;> obtain hwaiting | hwaiting := hwaiting <;> constructor <;> simp_all

/-- **Every event once and in order**: in every run, with any number of consumers, what they were
given one after the other and then the queue are the events that were taken in. Each yields what it
was given, in that order, except for the last one while it is at its `await`; a consumer ends only
when the stream is done and nothing is queued; and an only consumer does not wait once it is
done. -/
theorem run_delivers (actions : List (Action ε ρ)) :
    (run extractResult actions).abs =
        actions.foldl (absStep extractResult) Agent.Proxy.EventStream.new ∧
      (∀ i, eventsOf i (run extractResult actions).given =
        eventsOf i (run extractResult actions).yielded ++
          ((run extractResult actions).held i).toList) ∧
      ((run extractResult actions).returned ≠ [] → (run extractResult actions).done = true ∧
        (run extractResult actions).queue = []) ∧
      ∀ k, (∀ i, .next i ∈ actions → i = k) → (run extractResult actions).done = true →
        (run extractResult actions).waiting = [] := by
  suffices h : Inv (run extractResult actions) ∧ (run extractResult actions).abs =
      actions.foldl (absStep extractResult) Agent.Proxy.EventStream.new ∧
      ∀ k, (∀ i, .next i ∈ actions → i = k) → Alone k (run extractResult actions) from
    ⟨h.2.1, h.1.given, fun hreturned => h.1.ended (.inr hreturned), fun k hk => (h.2.2 k hk).done⟩
  induction actions using List.reverseRecOn with
  | nil => exact ⟨⟨fun _ => rfl, fun _ => rfl, fun h => by simp [run, new] at h, List.nodup_nil,
      fun _ => rfl⟩, rfl, fun _ _ => ⟨.inl rfl, fun _ => rfl⟩⟩
  | append_singleton actions a ih =>
    obtain ⟨hi, habs, halone⟩ := ih
    simp only [run, List.foldl_append, List.foldl_cons, List.foldl_nil, ← habs]
    refine ⟨hi.step extractResult a, abs_step extractResult hi a, fun k hk => ?_⟩
    exact (halone k fun i hmem => hk i (List.mem_append_left _ hmem)).step extractResult
      fun i ha => hk i (ha ▸ List.mem_append_right _ List.mem_cons_self)

end EventStream

end PiMono.Ai
