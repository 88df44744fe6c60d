import PiMono.Ai.CredentialStore

/-!
# Rotated credentials

The tasks of a provider run one after the other: their events follow the protocol `Next`
(`Inv.path`), in the order of the calls. `refreshes_safe` reads off what that means for a
credential that has been refreshed.
-/

namespace PiMono.Ai.CredentialStore

variable {τ : Type}

/-! ## The protocol -/

/-- What the chain is doing. -/
inductive Phase (τ : Type) where
  | idle
  | running (i : Nat)
  | refreshing (i : Nat) (current : OAuthCredential τ)
  | replied (i : Nat) (next : OAuthCredential τ)

/-- What may happen next. -/
inductive Next : Phase τ → Event τ → Phase τ → Prop
  | began (i : Nat) : Next .idle (.began i) (.running i)
  | wrote (i : Nat) (next : Credential τ) : Next (.running i) (.wrote i next) .idle
  | deleted (i : Nat) : Next (.running i) (.deleted i) .idle
  | kept (i : Nat) : Next (.running i) (.kept i) .idle
  | dropped (i : Nat) : Next (.running i) (.dropped i) .idle
  | started (i : Nat) (current : OAuthCredential τ) :
      Next (.running i) (.refreshStarted i current) (.refreshing i current)
  | rejected (i : Nat) (current : OAuthCredential τ) :
      Next (.refreshing i current) (.refreshRejected i) .idle
  | resolved (i : Nat) (current next : OAuthCredential τ) :
      Next (.refreshing i current) (.refreshResolved i next) (.replied i next)
  | stored (i : Nat) (next : OAuthCredential τ) :
      Next (.replied i next) (.wrote i (.oauth next)) .idle
  | lost (i : Nat) (next : OAuthCredential τ) : Next (.replied i next) (.dropped i) .idle

/-- The log of a chain. -/
abbrev Logged (log : List (Event τ)) (phase : Phase τ) : Prop := Runs.Path Next .idle log phase

/-- Behind the reply, the credential is set or dropped before anything else happens. -/
theorem resolved_then {a b : List (Event τ)} {i : Nat} {next : OAuthCredential τ} {phase : Phase τ}
    (h : Logged (a ++ .refreshResolved i next :: b) phase) :
    b = [] ∨ (∃ b', b = .wrote i (.oauth next) :: b') ∨ ∃ b', b = .dropped i :: b' := by
  obtain ⟨m, -, n, hn, hrest⟩ := Runs.path_append.mp h
  cases hn
  cases b with
  | nil => exact .inl rfl
  | cons e b =>
    obtain ⟨k, hk, -⟩ := hrest
    cases hk with
    | stored => exact .inr (.inl ⟨b, rfl⟩)
    | lost => exact .inr (.inr ⟨b, rfl⟩)

/-- Behind the start of a refresh, it settles before anything else happens. -/
theorem started_then {a b : List (Event τ)} {i : Nat} {current : OAuthCredential τ}
    {phase : Phase τ}
    (h : Logged (a ++ .refreshStarted i current :: b) phase) :
    b = [] ∨ (∃ b', b = .refreshRejected i :: b') ∨ ∃ next b', b =
      .refreshResolved i next :: b' := by
  obtain ⟨m, -, n, hn, hrest⟩ := Runs.path_append.mp h
  cases hn
  cases b with
  | nil => exact .inl rfl
  | cons e b =>
    obtain ⟨k, hk, -⟩ := hrest
    cases hk with
    | rejected => exact .inr (.inl ⟨b, rfl⟩)
    | resolved => exact .inr (.inr ⟨_, b, rfl⟩)

/-- Between two starts, the first one rejects or is dropped, or a credential is set or deleted. -/
theorem started_twice {a b d : List (Event τ)} {i j : Nat} {current current' : OAuthCredential τ}
    {phase : Phase τ}
    (h : Logged (a ++ .refreshStarted i current :: (b ++ .refreshStarted j current' :: d)) phase) :
    (∃ e ∈ b, e.writes = true) ∨ .refreshRejected i ∈ b ∨ .dropped i ∈ b := by
  rcases started_then h with hnil | ⟨b', hb⟩ | ⟨next, b', hb⟩
  · simp at hnil
  · cases b with
    | nil => cases hb
    | cons e b =>
      obtain ⟨rfl, -⟩ := List.cons.inj hb
      exact .inr (.inl List.mem_cons_self)
  · cases b with
    | nil => cases hb
    | cons e b =>
      obtain ⟨rfl, -⟩ := List.cons.inj hb
      rw [List.append_cons] at h
      rcases resolved_then h with hnil | ⟨b', hb⟩ | ⟨b', hb⟩
      · simp at hnil
      · cases b with
        | nil => cases hb
        | cons e b =>
          obtain ⟨rfl, -⟩ := List.cons.inj hb
          exact .inl ⟨_, List.mem_cons_of_mem _ List.mem_cons_self, rfl⟩
      · cases b with
        | nil => cases hb
        | cons e b =>
          obtain ⟨rfl, -⟩ := List.cons.inj hb
          exact .inr (.inr (List.mem_cons_of_mem _ List.mem_cons_self))

/-! ## The invariant -/

/-- The call that is running, if one is, is at the stage that the phase says. -/
def At (s : State τ) : Phase τ → Prop
  | .idle => ∀ (j : Nat) (op : Op τ), s.ops[j]? = some op → op.stage = .queued ∨
      op.stage.isSettled = true
  | .running i => ∃ op current next, s.ops[i]? = some op ∧ op.stage = .returning current next
  | .refreshing i current => ∃ op, s.ops[i]? = some op ∧ op.stage = .refreshing current
  | .replied i next =>
    ∃ op current, s.ops[i]? = some op ∧ op.stage = .returning current (some (.oauth next))

/-- The calls run one after the other, and the log says what they have done. -/
structure Inv (first : Option (Credential τ)) (s : State τ) : Prop where
  chained : ∀ j, s.chain = some j → j + 1 = s.ops.length
  unchained : s.chain = none → ∀ (j : Nat) (op : Op τ), s.ops[j]? = some op →
    op.stage.isSettled = true
  previous : ∀ (i : Nat) (op : Op τ), s.ops[i]? = some op →
    (∀ j, op.previous = some j → j + 1 = i) ∧
    (op.previous = none → ∀ j < i, s.isSettled j = true)
  turn : ∀ (i : Nat) (op : Op τ), s.ops[i]? = some op → op.stage ≠ .queued →
    ∀ j < i, s.isSettled j = true
  path : ∃ phase, Logged s.log phase ∧ At s phase
  content : s.credential = s.log.foldl Event.after first
  begun : ∀ e ∈ s.log, ∃ op, s.ops[e.op]? = some op ∧ op.stage ≠ .queued
  ordered : s.log.Pairwise fun e e' => e.op ≤ e'.op
  dropped : ∀ i, .dropped i ∈ s.log → ∃ op, s.ops[i]? = some op ∧ op.aborted = true
  resolves : ∀ i current, .refreshStarted i current ∈ s.log →
    ∃ op minimum, s.ops[i]? = some op ∧ op.task = .resolve minimum
  held : ∀ a i current b, s.log = a ++ .refreshStarted i current :: b →
    a.foldl Event.after first = some (.oauth current)

theorem inv_initial (first : Option (Credential τ)) (now : Nat) :
    Inv first (State.initial first now) where
  chained := nofun
  unchained := fun _ _ _ h => by cases h
  previous := fun _ _ h => by cases h
  turn := fun _ _ h => by cases h
  path := ⟨.idle, rfl, fun _ _ h => by cases h⟩
  content := rfl
  begun := nofun
  ordered := .nil
  dropped := nofun
  resolves := nofun
  held := fun a _ _ _ h => by cases a <;> cases h

section Steps

variable {first : Option (Credential τ)} {s : State τ} {i : Nat} {op : Op τ}

theorem isSettled_eq (h : s.ops[i]? = some op) : s.isSettled i = op.stage.isSettled := by
  rw [State.isSettled, h]
  rfl

/-- Only one call is neither queued nor settled. -/
theorem Inv.only (h : Inv first s) {k : Nat} {op' : Op τ} (hi : s.ops[i]? = some op)
    (hk : s.ops[k]? = some op') (hqueued : op.stage ≠ .queued) (hqueued' : op'.stage ≠ .queued)
    (hsettled : op.stage.isSettled = false) (hsettled' : op'.stage.isSettled = false) : i = k := by
  rcases Nat.lt_trichotomy i k with hlt | heq | hlt
  · have hdone := h.turn k op' hk hqueued' i hlt
    rw [isSettled_eq hi, hsettled] at hdone
    cases hdone
  · exact heq
  · have hdone := h.turn i op hi hqueued k hlt
    rw [isSettled_eq hk, hsettled'] at hdone
    cases hdone

/-- The phase while a call waits for its refresh. -/
theorem Inv.phase_refreshing (h : Inv first s) (hi : s.ops[i]? = some op)
    {current : OAuthCredential τ} (hstage : op.stage = .refreshing current) {phase : Phase τ}
    (hat : At s phase) : phase = .refreshing i current := by
  have hqueued : op.stage ≠ .queued := by rw [hstage]; nofun
  have hsettled : op.stage.isSettled = false := by rw [hstage]; rfl
  cases phase with
  | idle =>
    rcases hat i op hi with hq | hs
    · exact absurd hq hqueued
    · rw [hsettled] at hs
      cases hs
  | running k =>
    obtain ⟨op', _, _, hk, hreturning⟩ := hat
    obtain rfl := h.only hi hk hqueued (by rw [hreturning]; nofun) hsettled
      (by rw [hreturning]; rfl)
    rw [hi] at hk
    rw [← Option.some.inj hk, hstage] at hreturning
    cases hreturning
  | refreshing k current' =>
    obtain ⟨op', hk, hrefreshing⟩ := hat
    obtain rfl :=
      h.only hi hk hqueued (by rw [hrefreshing]; nofun) hsettled (by rw [hrefreshing]; rfl)
    rw [hi] at hk
    rw [← Option.some.inj hk, hstage] at hrefreshing
    cases hrefreshing
    rfl
  | replied k next =>
    obtain ⟨op', _, hk, hreturning⟩ := hat
    obtain rfl := h.only hi hk hqueued (by rw [hreturning]; nofun) hsettled
      (by rw [hreturning]; rfl)
    rw [hi] at hk
    rw [← Option.some.inj hk, hstage] at hreturning
    cases hreturning

/-- The phase while a call has its answer. -/
theorem Inv.phase_returning (h : Inv first s) (hi : s.ops[i]? = some op)
    {current next : Option (Credential τ)} (hstage : op.stage = .returning current next)
    {phase : Phase τ} (hat : At s phase) :
    phase = .running i ∨ ∃ answer, phase = .replied i answer ∧ next = some (.oauth answer) := by
  have hqueued : op.stage ≠ .queued := by rw [hstage]; nofun
  have hsettled : op.stage.isSettled = false := by rw [hstage]; rfl
  cases phase with
  | idle =>
    rcases hat i op hi with hq | hs
    · exact absurd hq hqueued
    · rw [hsettled] at hs
      cases hs
  | running k =>
    obtain ⟨op', _, _, hk, hreturning⟩ := hat
    obtain rfl := h.only hi hk hqueued (by rw [hreturning]; nofun) hsettled
      (by rw [hreturning]; rfl)
    exact .inl rfl
  | refreshing k current' =>
    obtain ⟨op', hk, hrefreshing⟩ := hat
    obtain rfl :=
      h.only hi hk hqueued (by rw [hrefreshing]; nofun) hsettled (by rw [hrefreshing]; rfl)
    rw [hi] at hk
    rw [← Option.some.inj hk, hstage] at hrefreshing
    cases hrefreshing
  | replied k answer =>
    obtain ⟨op', _, hk, hreturning⟩ := hat
    obtain rfl := h.only hi hk hqueued (by rw [hreturning]; nofun) hsettled
      (by rw [hreturning]; rfl)
    rw [hi] at hk
    rw [← Option.some.inj hk, hstage] at hreturning
    cases hreturning
    exact .inr ⟨answer, rfl, rfl⟩

/-- Everything in front of a call whose turn it is has settled. -/
theorem Inv.settled_of_inTurn (h : Inv first s) (hi : s.ops[i]? = some op)
    (hturn : s.inTurn op.previous = true) : ∀ j < i, s.isSettled j = true := by
  obtain ⟨hsome, hnone⟩ := h.previous i op hi
  cases hprevious : op.previous with
  | none => exact hnone hprevious
  | some k =>
    rw [hprevious] at hturn
    have hk := hsome k hprevious
    have hsettled : s.isSettled k = true := hturn
    intro j hj
    by_cases hjk : j = k
    · rw [hjk]
      exact hsettled
    · cases hop : s.ops[k]? with
      | none =>
        rw [State.isSettled, hop] at hsettled
        cases hsettled
      | some op' =>
        rw [isSettled_eq hop] at hsettled
        refine h.turn k op' hop (fun hq => ?_) j (by omega)
        rw [hq] at hsettled
        cases hsettled

/-- Nothing runs while a call gets its turn. -/
theorem Inv.phase_inTurn (h : Inv first s) (hi : s.ops[i]? = some op) (hstage : op.stage = .queued)
    (hturn : s.inTurn op.previous = true) {phase : Phase τ} (hat : At s phase) : phase = .idle := by
  have hfront := h.settled_of_inTurn hi hturn
  have hnot : ∀ (k : Nat) (op' : Op τ), s.ops[k]? = some op' → op'.stage ≠ .queued →
      op'.stage.isSettled = false → False := by
    intro k op' hk hqueued hsettled
    rcases Nat.lt_trichotomy k i with hlt | rfl | hlt
    · have hdone := hfront k hlt
      rw [isSettled_eq hk, hsettled] at hdone
      cases hdone
    · rw [hi] at hk
      exact hqueued (Option.some.inj hk ▸ hstage)
    · have hdone := h.turn k op' hk hqueued i hlt
      rw [isSettled_eq hi, hstage] at hdone
      cases hdone
  cases phase with
  | idle => rfl
  | running k =>
    obtain ⟨op', _, _, hk, hreturning⟩ := hat
    exact (hnot k op' hk (by rw [hreturning]; nofun) (by rw [hreturning]; rfl)).elim
  | refreshing k current =>
    obtain ⟨op', hk, hrefreshing⟩ := hat
    exact (hnot k op' hk (by rw [hrefreshing]; nofun) (by rw [hrefreshing]; rfl)).elim
  | replied k next =>
    obtain ⟨op', _, hk, hreturning⟩ := hat
    exact (hnot k op' hk (by rw [hreturning]; nofun) (by rw [hreturning]; rfl)).elim

theorem ops_advance (hi : s.ops[i]? = some op) (stage : Stage τ) (events : List (Event τ))
    (j : Nat) : (s.advance i op stage events).ops[j]?
      = if j = i then some { op with stage } else s.ops[j]? := by
  obtain ⟨hlt, -⟩ := List.getElem?_eq_some_iff.mp hi
  rw [State.advance, List.getElem?_set]
  by_cases hj : j = i
  · rw [if_pos hj, if_pos hj.symm, if_pos (hj ▸ hlt)]
  · rw [if_neg hj, if_neg fun hij => hj hij.symm]

theorem isSettled_advance (hi : s.ops[i]? = some op) (hopen : op.stage.isSettled = false)
    (stage : Stage τ) (events : List (Event τ)) {j : Nat} (hj : s.isSettled j = true) :
    (s.advance i op stage events).isSettled j = true := by
  have hji : j ≠ i := by
    rintro rfl
    rw [isSettled_eq hi, hopen] at hj
    cases hj
  rw [State.isSettled, ops_advance hi, if_neg hji]
  exact hj

/-- Behind a call that is not settled, all calls are queued. -/
theorem Inv.queued_behind (h : Inv first s) (hi : s.ops[i]? = some op)
    (hopen : op.stage.isSettled = false) {j : Nat} {op' : Op τ} (hj : s.ops[j]? = some op')
    (hij : i < j) : op'.stage = .queued := by
  by_contra hqueued
  have hdone := h.turn j op' hj hqueued i hij
  rw [isSettled_eq hi, hopen] at hdone
  cases hdone

/-- Once a call has settled, the chain is idle. -/
theorem Inv.at_idle (h : Inv first s) (hi : s.ops[i]? = some op)
    (hopen : op.stage.isSettled = false) (hfront : ∀ j < i, s.isSettled j = true) {stage : Stage τ}
    (hstage : stage.isSettled = true) (events : List (Event τ)) :
    At (s.advance i op stage events) .idle := by
  intro j op' hj
  rw [ops_advance hi] at hj
  split at hj
  · cases hj
    exact .inr hstage
  · rename_i hji
    rcases Nat.lt_or_gt_of_ne hji with hlt | hlt
    · refine .inr ?_
      rw [← isSettled_eq hj]
      exact hfront j hlt
    · exact .inl (h.queued_behind hi hopen hj hlt)

/-- A call goes on. -/
theorem Inv.advance (h : Inv first s) (hi : s.ops[i]? = some op)
    (hopen : op.stage.isSettled = false) (hfront : ∀ j < i, s.isSettled j = true)
    {stage : Stage τ} (hstage : stage ≠ .queued) {events : List (Event τ)}
    (hevents : ∀ e ∈ events, e.op = i)
    (hpath : ∃ phase, Logged (s.log ++ events) phase ∧ At (s.advance i op stage events) phase)
    (hdropped : .dropped i ∈ events → op.aborted = true)
    (hresolves : ∀ current, .refreshStarted i current ∈ events →
      ∃ minimum, op.task = .resolve minimum)
    (hheld : ∀ a current b, events = a ++ .refreshStarted i current :: b →
      a.foldl Event.after s.credential = some (.oauth current)) :
    Inv first (s.advance i op stage events) := by
  have hops := ops_advance hi stage events
  have hself : (s.advance i op stage events).ops[i]? = some { op with stage } := by
    rw [hops, if_pos rfl]
  have hmono : ∀ {j : Nat}, s.isSettled j = true →
    (s.advance i op stage events).isSettled j = true :=
    isSettled_advance hi hopen stage events
  -- what is known of a call stands, but for the stage of this one
  have hkeep : ∀ {P : Op τ → Prop} {j : Nat}, (∃ op', s.ops[j]? = some op' ∧ P op') →
      (j = i → P { op with stage }) →
      ∃ op', (s.advance i op stage events).ops[j]? = some op' ∧ P op' := by
    rintro P j ⟨op', hj, hop'⟩ hnew
    by_cases hji : j = i
    · exact ⟨_, by rw [hops, if_pos hji], hnew hji⟩
    · exact ⟨op', by rw [hops, if_neg hji, hj], hop'⟩
  refine ⟨?_, ?_, ?_, ?_, hpath, ?_, ?_, ?_, ?_, ?_, ?_⟩
  · intro j hj
    rw [h.chained j hj]
    exact (List.length_set ..).symm
  · intro hchain
    have hdone := h.unchained hchain i op hi
    rw [hopen] at hdone
    cases hdone
  · intro j op' hj
    rw [hops] at hj
    split at hj
    · rename_i hji
      obtain rfl := hji
      cases hj
      obtain ⟨hsome, hnone⟩ := h.previous j op hi
      exact ⟨hsome, fun hprevious k hk => hmono (hnone hprevious k hk)⟩
    · obtain ⟨hsome, hnone⟩ := h.previous j op' hj
      exact ⟨hsome, fun hprevious k hk => hmono (hnone hprevious k hk)⟩
  · intro j op' hj hqueued k hk
    rw [hops] at hj
    split at hj
    · rename_i hji
      exact hmono (hfront k (hji ▸ hk))
    · exact hmono (h.turn j op' hj hqueued k hk)
  · show events.foldl Event.after s.credential = (s.log ++ events).foldl Event.after first
    rw [List.foldl_append, ← h.content]
  · intro e he
    rcases List.mem_append.mp he with he | he
    · exact hkeep (P := fun op' => op'.stage ≠ .queued) (h.begun e he) fun _ => hstage
    · rw [hevents e he]
      exact ⟨_, hself, hstage⟩
  · refine List.pairwise_append.mpr ⟨h.ordered, ?_, fun e he e' he' => ?_⟩
    · refine List.pairwise_iff_forall_sublist.mpr fun hsub => Nat.le_of_eq ?_
      exact (hevents _ (hsub.subset (by simp))).trans (hevents _ (hsub.subset (by simp))).symm
    · rw [hevents e' he']
      obtain ⟨op', hop', hqueued⟩ := h.begun e he
      exact Nat.le_of_not_lt fun hlt => hqueued (h.queued_behind hi hopen hop' hlt)
  · intro k hk
    rcases List.mem_append.mp hk with hold | hnew
    · obtain ⟨op', hop', haborted⟩ := h.dropped k hold
      refine hkeep (P := fun op' => op'.aborted = true) ⟨op', hop', haborted⟩ fun hki => ?_
      rw [hki, hi] at hop'
      rw [← Option.some.inj hop'] at haborted
      exact haborted
    · obtain rfl : k = i := hevents _ hnew
      exact ⟨_, hself, hdropped hnew⟩
  · intro k current hk
    rcases List.mem_append.mp hk with hold | hnew
    · obtain ⟨op', minimum, hop', htask⟩ := h.resolves k current hold
      by_cases hki : k = i
      · rw [hki, hi] at hop'
        have htask' : op.task = .resolve minimum := by rw [Option.some.inj hop']; exact htask
        refine ⟨{ op with stage := stage }, minimum, ?_, htask'⟩
        rw [hki]
        exact hself
      · exact ⟨op', minimum, by rw [hops, if_neg hki, hop'], htask⟩
    · obtain rfl : k = i := hevents _ hnew
      obtain ⟨minimum, htask⟩ := hresolves current hnew
      exact ⟨_, minimum, hself, htask⟩
  · intro a k current b hlog
    rcases List.append_eq_append_iff.mp hlog with ⟨c, hc, hb⟩ | ⟨c, ha, hb⟩
    · obtain rfl : k = i := hevents (.refreshStarted k current) (by rw [hb]; simp)
      rw [hc, List.foldl_append, ← h.content]
      exact hheld c current b hb
    · cases c with
      | nil =>
        rw [List.nil_append] at hb
        obtain rfl : k = i := hevents (.refreshStarted k current) (by rw [← hb]; simp)
        rw [List.append_nil] at ha
        rw [← ha, ← h.content]
        exact hheld [] current b hb.symm
      | cons e c =>
        obtain ⟨rfl, -⟩ := List.cons.inj hb
        exact h.held a k current c ha

theorem Inv.enqueue (h : Inv first s) (task : Task τ) : Inv first (s.enqueue task) := by
  have hlt : ∀ {j : Nat} {op' : Op τ}, s.ops[j]? = some op' → (s.enqueue task).ops[j]? =
    some op' := by
    intro j op' hj
    obtain ⟨hj', -⟩ := List.getElem?_eq_some_iff.mp hj
    show (s.ops ++ _)[j]? = _
    rw [List.getElem?_append_left hj', hj]
  have hmono : ∀ {j : Nat}, s.isSettled j = true → (s.enqueue task).isSettled j = true := by
    intro j hj
    cases hop : s.ops[j]? with
    | none =>
      rw [State.isSettled, hop] at hj
      cases hj
    | some op' =>
      rw [isSettled_eq (hlt hop), ← isSettled_eq hop]
      exact hj
  have hcases : ∀ {j : Nat} {op' : Op τ}, (s.enqueue task).ops[j]? = some op' →
      s.ops[j]? = some op' ∨ (j = s.ops.length ∧ op' = ⟨s.chain, task, false, .queued⟩) := by
    intro j op' hj
    rw [State.enqueue, List.getElem?_append] at hj
    split at hj
    · exact .inl hj
    · rename_i hnot
      rw [List.getElem?_singleton] at hj
      split at hj
      · exact .inr ⟨by omega, (Option.some.inj hj).symm⟩
      · cases hj
  obtain ⟨phase, hlogged, hat⟩ := h.path
  refine ⟨?_, nofun, ?_, ?_, ⟨phase, hlogged, ?_⟩, h.content, ?_, h.ordered, ?_, ?_, h.held⟩
  · rintro j ⟨⟩
    simp [State.enqueue]
  · intro j op' hj
    rcases hcases hj with hj | ⟨rfl, rfl⟩
    · obtain ⟨hsome, hnone⟩ := h.previous j op' hj
      exact ⟨hsome, fun hprevious k hk => hmono (hnone hprevious k hk)⟩
    · refine ⟨h.chained, fun hprevious k hk => hmono ?_⟩
      rw [isSettled_eq (List.getElem?_eq_getElem hk)]
      exact h.unchained hprevious k _ (List.getElem?_eq_getElem hk)
  · intro j op' hj hqueued k hk
    rcases hcases hj with hj | ⟨-, rfl⟩
    · exact hmono (h.turn j op' hj hqueued k hk)
    · exact absurd rfl hqueued
  · cases phase with
    | idle =>
      intro j op' hj
      rcases hcases hj with hj | ⟨-, rfl⟩
      · exact hat j op' hj
      · exact .inl rfl
    | running k =>
      obtain ⟨op', current, next, hk, hstage⟩ := hat
      exact ⟨op', current, next, hlt hk, hstage⟩
    | refreshing k current =>
      obtain ⟨op', hk, hstage⟩ := hat
      exact ⟨op', hlt hk, hstage⟩
    | replied k next =>
      obtain ⟨op', current, hk, hstage⟩ := hat
      exact ⟨op', current, hlt hk, hstage⟩
  · intro e he
    obtain ⟨op', hop', hqueued⟩ := h.begun e he
    exact ⟨op', hlt hop', hqueued⟩
  · intro k hk
    obtain ⟨op', hop', haborted⟩ := h.dropped k hk
    exact ⟨op', hlt hop', haborted⟩
  · intro k current hk
    obtain ⟨op', minimum, hop', htask⟩ := h.resolves k current hk
    exact ⟨op', minimum, hlt hop', htask⟩

theorem Inv.abort (h : Inv first s) (hi : s.ops[i]? = some op) :
    Inv first { s with ops := s.ops.set i { op with aborted := true } } := by
  obtain ⟨hbound, hget⟩ := List.getElem?_eq_some_iff.mp hi
  have hops : ∀ j : Nat, (s.ops.set i { op with aborted := true })[j]?
      = (s.ops[j]?).map fun op' => { op' with aborted := op'.aborted || decide (j = i) } := by
    intro j
    rw [List.getElem?_set]
    by_cases hj : i = j
    · subst hj
      simp [hbound, hget]
    · rw [if_neg hj, decide_eq_false fun heq => hj heq.symm]
      simp
  have hlt : ∀ {j : Nat} {op' : Op τ}, s.ops[j]? = some op' →
      (s.ops.set i { op with aborted := true })[j]?
        = some { op' with aborted := op'.aborted || decide (j = i) } := fun hj => by
    rw [hops, hj]
    rfl
  have hback : ∀ {j : Nat} {op' : Op τ},
      (s.ops.set i { op with aborted := true })[j]? = some op' →
      ∃ old, s.ops[j]? = some old ∧ op'.previous = old.previous ∧ op'.stage = old.stage := by
    intro j op' hj
    rw [hops] at hj
    obtain ⟨old, hold, rfl⟩ := Option.map_eq_some_iff.mp hj
    exact ⟨old, hold, rfl, rfl⟩
  have hmono : ∀ {j : Nat}, s.isSettled j = true →
      State.isSettled { s with ops := s.ops.set i { op with aborted := true } } j = true := by
    intro j hj
    cases hop : s.ops[j]? with
    | none =>
      rw [State.isSettled, hop] at hj
      cases hj
    | some op' =>
      rw [isSettled_eq hop] at hj
      rw [isSettled_eq (s := { s with ops := s.ops.set i { op with aborted := true } }) (hlt hop)]
      exact hj
  obtain ⟨phase, hlogged, hat⟩ := h.path
  refine ⟨?_, ?_, ?_, ?_, ⟨phase, hlogged, ?_⟩, h.content, ?_, h.ordered, ?_, ?_, h.held⟩
  · intro j hj
    rw [h.chained j hj]
    exact (List.length_set ..).symm
  · intro hchain j op' hj
    obtain ⟨old, hold, -, hstage⟩ := hback hj
    rw [hstage]
    exact h.unchained hchain j old hold
  · intro j op' hj
    obtain ⟨old, hold, hprevious, -⟩ := hback hj
    obtain ⟨hsome, hnone⟩ := h.previous j old hold
    rw [hprevious]
    exact ⟨hsome, fun hp k hk => hmono (hnone hp k hk)⟩
  · intro j op' hj hqueued k hk
    obtain ⟨old, hold, -, hstage⟩ := hback hj
    exact hmono (h.turn j old hold (hstage ▸ hqueued) k hk)
  · cases phase with
    | idle =>
      intro j op' hj
      obtain ⟨old, hold, -, hstage⟩ := hback hj
      rw [hstage]
      exact hat j old hold
    | running k =>
      obtain ⟨op', current, next, hk, hstage⟩ := hat
      exact ⟨_, current, next, hlt hk, hstage⟩
    | refreshing k current =>
      obtain ⟨op', hk, hstage⟩ := hat
      exact ⟨_, hlt hk, hstage⟩
    | replied k next =>
      obtain ⟨op', current, hk, hstage⟩ := hat
      exact ⟨_, current, hlt hk, hstage⟩
  · intro e he
    obtain ⟨op', hop', hqueued⟩ := h.begun e he
    exact ⟨_, hlt hop', hqueued⟩
  · intro k hk
    obtain ⟨op', hop', haborted⟩ := h.dropped k hk
    exact ⟨_, hlt hop', by simp [haborted]⟩
  · intro k current hk
    obtain ⟨op', minimum, hop', htask⟩ := h.resolves k current hk
    exact ⟨_, minimum, hlt hop', htask⟩

/-- The tail of the last call forgets the chain. -/
theorem Inv.forget (h : Inv first s) (hchain : s.chain = some i) (hsettled : s.isSettled i = true) :
    Inv first { s with chain := none } := by
  have hlast := h.chained i hchain
  have hall : ∀ (j : Nat) (op : Op τ), s.ops[j]? = some op → op.stage.isSettled = true := by
    intro j op hj
    obtain ⟨hj', -⟩ := List.getElem?_eq_some_iff.mp hj
    have hop := List.getElem?_eq_getElem (l := s.ops) (i := i) (by omega)
    rw [isSettled_eq hop] at hsettled
    rw [← isSettled_eq hj]
    by_cases hji : j = i
    · rw [hji, isSettled_eq hop]
      exact hsettled
    · refine h.turn i _ hop (fun hq => ?_) j (by omega)
      rw [hq] at hsettled
      cases hsettled
  exact ⟨nofun, fun _ => hall, h.previous, h.turn, h.path, h.content, h.begun, h.ordered, h.dropped,
    h.resolves, h.held⟩

/-- A call settles, with events that bring the chain back to rest. -/
theorem Inv.settle (h : Inv first s) (hi : s.ops[i]? = some op)
    (hopen : op.stage.isSettled = false) (hfront : ∀ j < i, s.isSettled j = true)
    {phase : Phase τ} (hlogged : Logged s.log phase) (result : Option (Option (Credential τ)))
    {events : List (Event τ)} (hevents : ∀ e ∈ events, e.op = i)
    (hpath : Runs.Path Next phase events .idle)
    (hdropped : .dropped i ∈ events → op.aborted = true)
    (hstarted : ∀ current, .refreshStarted i current ∉ events) :
    Inv first (s.advance i op (.settled result) events) := by
  refine h.advance hi hopen hfront (by nofun) hevents
    ⟨.idle, Runs.path_append.mpr ⟨phase, hlogged, hpath⟩, h.at_idle hi hopen hfront rfl events⟩
    hdropped (fun current hc => absurd hc (hstarted current)) fun a current b hab => ?_
  exact absurd (by rw [hab]; simp) (hstarted current)

/-- A call comes to a stage that is not the last one. -/
theorem Inv.proceed (h : Inv first s) (hi : s.ops[i]? = some op)
    (hopen : op.stage.isSettled = false) (hfront : ∀ j < i, s.isSettled j = true)
    {phase phase' : Phase τ} (hlogged : Logged s.log phase) {stage : Stage τ}
    (hstage : stage ≠ .queued) {events : List (Event τ)} (hevents : ∀ e ∈ events, e.op = i)
    (hpath : Runs.Path Next phase events phase')
    (hat : At (s.advance i op stage events) phase')
    (hdropped : .dropped i ∉ events)
    (hresolves : ∀ current, .refreshStarted i current ∈ events →
      ∃ minimum, op.task = .resolve minimum)
    (hheld : ∀ a current b, events = a ++ .refreshStarted i current :: b →
      a.foldl Event.after s.credential = some (.oauth current)) :
    Inv first (s.advance i op stage events) :=
  h.advance hi hopen hfront hstage hevents
    ⟨phase', Runs.path_append.mpr ⟨phase, hlogged, hpath⟩, hat⟩
    (fun hd => absurd hd hdropped) hresolves hheld

theorem Inv.begin (h : Inv first s) (hi : s.ops[i]? = some op) (hqueued : op.stage = .queued)
    (hturn : s.inTurn op.previous = true) : Inv first (s.begin i op) := by
  have hopen : op.stage.isSettled = false := by rw [hqueued]; rfl
  have hfront := h.settled_of_inTurn hi hturn
  obtain ⟨phase, hlogged, hat⟩ := h.path
  obtain rfl := h.phase_inTurn hi hqueued hturn hat
  have hself : ∀ stage events, (s.advance i op stage events).ops[i]? = some { op with stage } :=
    fun stage events => by rw [ops_advance hi, if_pos rfl]
  have hreturning : ∀ next, Inv first (s.advance i op (.returning s.credential next) [.began i]) :=
    fun next => h.proceed hi hopen hfront hlogged (by nofun) (by simp [Event.op])
      ⟨_, .began i, rfl⟩ ⟨_, _, _, hself _ _, rfl⟩ (by simp) (by simp) fun a current b hab => by
        cases a with
        | nil => cases hab
        | cons e a => simp at hab
  unfold State.begin
  split
  · exact h.settle hi hopen hfront hlogged _ (by simp [Event.op])
      ⟨_, .began i, _, .deleted i, rfl⟩ (by simp) (by simp)
  · exact hreturning _
  · rename_i minimum htask
    split
    · rename_i current hcredential
      split
      · refine h.proceed hi hopen hfront hlogged (by nofun) (by simp [Event.op])
          ⟨_, .began i, _, .started i current, rfl⟩ ⟨_, hself _ _, rfl⟩ (by simp)
          (fun _ _ => ⟨minimum, htask⟩) fun a current' b hab => ?_
        cases a with
        | nil => cases hab
        | cons e a =>
          obtain ⟨rfl, hrest⟩ := List.cons.inj hab
          cases a with
          | nil =>
            cases hrest
            exact hcredential
          | cons e a => simp at hrest
      · exact hreturning none
    · exact hreturning none

theorem Inv.reply (h : Inv first s) (hi : s.ops[i]? = some op) {current : OAuthCredential τ}
    (hstage : op.stage = .refreshing current) :
    Inv first (s.advance i op (.settled none) [.refreshRejected i]) ∧
      ∀ next, Inv first (s.advance i op
        (.returning (some (.oauth current)) (some (.oauth next))) [.refreshResolved i next]) := by
  have hopen : op.stage.isSettled = false := by rw [hstage]; rfl
  have hfront := h.turn i op hi (by rw [hstage]; nofun)
  obtain ⟨phase, hlogged, hat⟩ := h.path
  obtain rfl := h.phase_refreshing hi hstage hat
  constructor
  · exact h.settle hi hopen hfront hlogged none (by simp [Event.op])
      ⟨_, .rejected i current, rfl⟩ (by simp) (by simp)
  · intro next
    refine h.proceed hi hopen hfront hlogged (by nofun) (by simp [Event.op])
      ⟨_, .resolved i current next, rfl⟩ ⟨_, _, by rw [ops_advance hi, if_pos rfl], rfl⟩ (by simp)
      (by simp) fun a current' b hab => ?_
    cases a with
    | nil => cases hab
    | cons e a => simp at hab

theorem Inv.commit (h : Inv first s) (hi : s.ops[i]? = some op)
    {current next : Option (Credential τ)} (hstage : op.stage = .returning current next) :
    (op.aborted = true → Inv first (s.advance i op (.settled none) [.dropped i])) ∧
      (∀ credential, next = some credential →
        Inv first (s.advance i op (.settled (some (some credential))) [.wrote i credential])) ∧
      (next = none → Inv first (s.advance i op (.settled (some current)) [.kept i])) := by
  have hopen : op.stage.isSettled = false := by rw [hstage]; rfl
  have hfront := h.turn i op hi (by rw [hstage]; nofun)
  obtain ⟨phase, hlogged, hat⟩ := h.path
  have hphase := h.phase_returning hi hstage hat
  refine ⟨fun haborted => ?_, ?_, ?_⟩
  · have hpath : Runs.Path Next phase [.dropped i] .idle := by
      rcases hphase with rfl | ⟨answer, rfl, -⟩
      · exact ⟨_, .dropped i, rfl⟩
      · exact ⟨_, .lost i answer, rfl⟩
    exact h.settle hi hopen hfront hlogged none (by simp [Event.op]) hpath (fun _ => haborted)
      (by simp)
  · rintro credential rfl
    have hpath : Runs.Path Next phase [.wrote i credential] .idle := by
      rcases hphase with rfl | ⟨answer, rfl, hanswer⟩
      · exact ⟨_, .wrote i credential, rfl⟩
      · cases hanswer
        exact ⟨_, .stored i answer, rfl⟩
    exact h.settle hi hopen hfront hlogged _ (by simp [Event.op]) hpath (by simp) (by simp)
  · rintro rfl
    rcases hphase with rfl | ⟨answer, -, hanswer⟩
    · exact h.settle hi hopen hfront hlogged _ (by simp [Event.op]) ⟨_, .kept i, rfl⟩ (by simp)
        (by simp)
    · cases hanswer

/-- Every step keeps the invariant. -/
theorem Inv.step {a : Action τ} {t : State τ} (h : Inv first s)
    (hstep : CredentialStore.step s a = some t) : Inv first t := by
  cases a with
  | resolve stored minimum =>
    cases hstep
    split
    · exact h.enqueue _
    · exact h
  | login credential =>
    cases hstep
    exact h.enqueue _
  | logout =>
    cases hstep
    exact h.enqueue _
  | abort i =>
    obtain ⟨op, hi, rfl⟩ := Option.map_eq_some_iff.mp hstep
    exact h.abort hi
  | tick ms =>
    cases hstep
    exact ⟨h.chained, h.unchained, h.previous, h.turn, h.path, h.content, h.begun, h.ordered,
      h.dropped, h.resolves, h.held⟩
  | start i =>
    obtain ⟨op, hi, hrest⟩ := Option.bind_eq_some_iff.mp hstep
    split at hrest
    · rename_i hcan
      have hqueued : op.stage = .queued := by
        have hwaits := hcan.1
        cases hstage : op.stage with
        | queued => rfl
        | _ =>
          rw [hstage] at hwaits
          cases hwaits
      cases hrest
      split
      · have hfront := h.settled_of_inTurn hi hcan.2
        obtain ⟨phase, hlogged, hat⟩ := h.path
        obtain rfl := h.phase_inTurn hi hqueued hcan.2 hat
        exact h.settle hi (by rw [hqueued]; rfl) hfront hlogged none (by simp) rfl (by simp)
          (by simp)
      · exact h.begin hi hqueued hcan.2
    · cases hrest
  | reply i answer =>
    obtain ⟨op, hi, hrest⟩ := Option.bind_eq_some_iff.mp hstep
    split at hrest
    · rename_i hstage
      cases hrest
      exact (h.reply hi hstage).2 _
    · rename_i hstage
      cases hrest
      exact (h.reply hi hstage).1
    · cases hrest
  | commit i =>
    obtain ⟨op, hi, hrest⟩ := Option.bind_eq_some_iff.mp hstep
    split at hrest
    · rename_i hstage
      obtain ⟨hdropped, hwrote, hkept⟩ := h.commit hi hstage
      cases hrest
      split
      · rename_i haborted
        exact hdropped haborted
      · split
        · exact hwrote _ rfl
        · exact hkept rfl
    · cases hrest
  | forget i =>
    simp only [CredentialStore.step] at hstep
    split at hstep
    · rename_i hcan
      cases hstep
      exact h.forget hcan.1 hcan.2
    · cases hstep

end Steps

/-- A call whose signal has been aborted. -/
def State.aborted (s : State τ) (i : Nat) : Prop := ∃ op, s.ops[i]? = some op ∧ op.aborted = true

/-- A call of `login` or `logout`. -/
def State.isLogin (s : State τ) (i : Nat) : Prop :=
  ∃ op, s.ops[i]? = some op ∧ ∀ minimum, op.task ≠ .resolve minimum

/-- What holds of a chain whose first credential is given. -/
structure Safe (first : Option (Credential τ)) (s : State τ) : Prop where
  -- the stored credential is what has been written last
  content : s.credential = s.log.foldl Event.after first
  -- a refresh starts with the stored credential
  held : ∀ a i current b, s.log = a ++ .refreshStarted i current :: b →
    a.foldl Event.after first = some (.oauth current)
  -- a credential is refreshed once, but for a refresh that rejects or is aborted
  once : ∀ a i current b j current' d,
    s.log = a ++ .refreshStarted i current :: (b ++ .refreshStarted j current' :: d) →
    (∃ e ∈ b, e.writes = true) ∨ .refreshRejected i ∈ b ∨ (.dropped i ∈ b ∧ s.aborted i)
  -- the new credential is stored before anything else happens, or the refresh was aborted
  stored : ∀ a i next b, s.log = a ++ .refreshResolved i next :: b →
    b = [] ∨ (∃ b', b = .wrote i (.oauth next) :: b') ∨ (s.aborted i ∧ ∃ b', b = .dropped i :: b')
  -- no login or logout is overwritten by a refresh that had started before
  kept : ∀ a e b i current next, s.log = a ++ e :: b → s.isLogin e.op →
    .refreshStarted i current ∈ a → .wrote i next ∉ b

/-- **Rotated credentials.** In every run, each credential that the store holds is refreshed at
most once unless the refresh rejects or is aborted, a new credential is stored before any other
task runs unless the refresh was aborted, and no login or logout is overwritten by a refresh that
had started before it. -/
theorem refreshes_safe (first : Option (Credential τ)) (now : Nat) (actions : List (Action τ))
    (s : State τ) (hrun : run (State.initial first now) actions = some s) : Safe first s := by
  have h : Inv first s := Runs.run_induction (P := Inv first)
    (fun s a t hs hstep => hs.step hstep) actions (inv_initial first now) hrun
  obtain ⟨phase, hlogged, -⟩ := h.path
  refine ⟨h.content, h.held, ?_, ?_, ?_⟩
  · intro a i current b j current' d hlog
    rw [hlog] at hlogged
    rcases started_twice hlogged with hwrites | hrejected | hdropped
    · exact .inl hwrites
    · exact .inr (.inl hrejected)
    · refine .inr (.inr ⟨hdropped, h.dropped i ?_⟩)
      rw [hlog]
      exact List.mem_append_right _ (List.mem_cons_of_mem _ (List.mem_append_left _ hdropped))
  · intro a i next b hlog
    rw [hlog] at hlogged
    rcases resolved_then hlogged with hnil | hwrote | ⟨b', rfl⟩
    · exact .inl hnil
    · exact .inr (.inl hwrote)
    · refine .inr (.inr ⟨h.dropped i ?_, b', rfl⟩)
      rw [hlog]
      simp
  · rintro a e b i current next hlog ⟨op, hop, hlogin⟩ hstarted hwrote
    -- the calls run in their order, so this is the call that had started a refresh
    have hordered := h.ordered
    rw [hlog] at hordered
    obtain ⟨-, hback, hbetween⟩ := List.pairwise_append.mp hordered
    have hle : i ≤ e.op := hbetween _ hstarted e List.mem_cons_self
    have hge : e.op ≤ i := (List.pairwise_cons.mp hback).1 _ hwrote
    obtain ⟨op', minimum, hop', htask⟩ := h.resolves i current (by rw [hlog]; simp [hstarted])
    rw [Nat.le_antisymm hle hge, hop] at hop'
    exact hlogin minimum (Option.some.inj hop' ▸ htask)

/-! ## A refresh that is aborted -/

/-- A credential that has expired, and one that has not. -/
def expiredCredential : OAuthCredential Nat := ⟨0, 0⟩

def rotatedCredential : OAuthCredential Nat := ⟨1, 1000000⟩

/-- Two callers find an expired credential. -/
def rotation : List (Action Nat) :=
  [.resolve expiredCredential none, .resolve expiredCredential none, .start 0,
    .reply 0 (some rotatedCredential), .commit 0, .start 1, .commit 1]

/-- A refresh is stored, and the next caller finds the new credential. -/
theorem refreshes_safe_sample :
    ∃ s, run (State.initial (some (.oauth expiredCredential)) 0) rotation = some s ∧
      s.credential = some (.oauth rotatedCredential) ∧
      Safe (some (.oauth expiredCredential)) s :=
  ⟨_, rfl, rfl, refreshes_safe _ 0 rotation _ rfl⟩

/-- The signal is aborted behind the reply: the new credential is dropped, and the next caller
refreshes the old one again. -/
theorem refreshed_twice : ∃ s, run (State.initial (some (.oauth expiredCredential)) 0)
      [.resolve expiredCredential none, .start 0, .reply 0 (some rotatedCredential), .abort 0,
        .commit 0, .resolve expiredCredential none, .start 1] = some s ∧
      s.credential = some (.oauth expiredCredential) ∧
      s.log = [.began 0, .refreshStarted 0 expiredCredential, .refreshResolved 0 rotatedCredential,
        .dropped 0, .began 1, .refreshStarted 1 expiredCredential] :=
  ⟨_, rfl, rfl, rfl⟩

end PiMono.Ai.CredentialStore
