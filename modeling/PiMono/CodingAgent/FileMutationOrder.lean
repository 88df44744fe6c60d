import PiMono.CodingAgent.FileMutationQueue

/-!
# The order of file mutations

What a run keeps (`Inv`): calls are registered in call order, the queue of a key is its
last call that is not done, and a callback is called once all earlier calls under its key
are done. So the calls under one key are served in order and the map ends empty
(`inv_run`). Calls for one file are only served in order if they are under one key
(`mutations_serialized`).
-/

namespace PiMono.CodingAgent.FileMutationQueue

variable {Path : Type} [DecidableEq Path] {s t : State Path} {links : Links Path} {i j : Nat}
  {k : Path} {x y : Stage Path}

open State

/-! ## Stages after a step -/

theorem stage_setStage (s : State Path) (i j : Nat) (y : Stage Path) :
    (s.setStage i y).stage j = if i = j then (s.stage j).map fun _ => y else s.stage j := by
  unfold State.stage State.setStage
  rw [List.getElem?_modify]
  cases s.calls[j]? with
  | none => by_cases h : i = j <;> simp [h]
  | some c => by_cases h : i = j <;> simp [h]

theorem path_setStage (s : State Path) (i j : Nat) (y : Stage Path) :
    (s.setStage i y).path j = s.path j := by
  unfold State.path State.setStage
  rw [List.getElem?_modify]
  cases s.calls[j]? with
  | none => rfl
  | some c => by_cases h : i = j <;> simp [h]

/-- One call is at another stage, the others are where they were. -/
def Moved (s t : State Path) (i : Nat) (x y : Stage Path) : Prop :=
  s.stage i = some x ∧ t.stage i = some y ∧ ∀ j, j ≠ i → t.stage j = s.stage j

theorem moved_setStage (hx : s.stage i = some x) (y : Stage Path) (queues : JsMap Path Nat) :
    Moved s { s.setStage i y with fileMutationQueues := queues } i x y := by
  have hstage : ∀ j, ({ s.setStage i y with fileMutationQueues := queues } : State Path).stage j
      = (s.setStage i y).stage j := fun _ => rfl
  refine ⟨hx, ?_, fun j hj => ?_⟩
  · rw [hstage, stage_setStage, if_pos rfl, hx]
    rfl
  · rw [hstage, stage_setStage, if_neg (Ne.symm hj)]

/-- A call is somewhere after the step as well, if it was before. -/
theorem Moved.stage_cases (h : Moved s t i x y) {z : Stage Path} (hz : t.stage j = some z) :
    j = i ∧ z = y ∨ j ≠ i ∧ s.stage j = some z := by
  by_cases hj : j = i
  · rw [hj, h.2.1] at hz
    exact .inl ⟨hj, (Option.some.inj hz).symm⟩
  · rw [h.2.2 j hj] at hz
    exact .inr ⟨hj, hz⟩

/-! ## The invariant -/

structure Inv (s : State Path) : Prop where
  -- registrations follow each other in call order
  inTurn : ∀ i x, s.stage i = some x → x ≠ .queued → ∀ j < i,
    ∃ y, s.stage j = some y ∧ y.registered = true
  -- the queue of a key is its last call, which is not done
  last : ∀ k i, s.fileMutationQueues.get? k = some i → ∃ x, s.stage i = some x ∧ x.key = some k ∧
    x.done = false ∧ ∀ j y, s.stage j = some y → y.key = some k → j ≤ i
  -- without a queue, all calls of the key are done
  free : ∀ k, s.fileMutationQueues.get? k = none → ∀ i x, s.stage i = some x → x.key = some k →
    x.done = true
  -- a call waits for an earlier one of its key
  link : ∀ i x m, s.stage i = some x → x.currentQueue = some m → m < i ∧
    ∃ y, s.stage m = some y ∧ y.key = x.key
  -- no call of its key that is not done stands between the two
  behind : ∀ i x k, s.stage i = some x → x.key = some k → ∀ j < i, ∀ y, s.stage j = some y →
    y.key = some k → y.done = true ∨ ∃ m, x.currentQueue = some m ∧ j ≤ m
  -- a callback is called when all earlier calls of its key are done
  fifo : ∀ i x k, s.stage i = some x → x.started = true → x.key = some k → ∀ j < i, ∀ y,
    s.stage j = some y → y.key = some k → y.done = true
  -- and when the promise it has waited for is resolved
  passed : ∀ i x, s.stage i = some x → x.started = true → s.resolved x.currentQueue = true

theorem inv_initial : Inv (initial : State Path) := by
  have hnone : ∀ i, (initial : State Path).stage i = none := fun _ => rfl
  refine ⟨?_, ?_, ?_, ?_, ?_, ?_, ?_⟩
  · intro i x hx
    cases hx
  · intro k i hi
    cases hi
  · intro k _ i x hx
    cases hx
  · intro i x m hx
    cases hx
  · intro i x k hx
    cases hx
  · intro i x k hx
    cases hx
  · intro i x hx
    cases hx

omit [DecidableEq Path] in
theorem started_of_chained (h : x.chained = true) : x.started = true ∧ x.done = true := by
  cases x <;> first | exact ⟨rfl, rfl⟩ | cases h

/-- A promise that is resolved is that of a call which is done. -/
theorem resolved_some {m : Nat} (h : s.resolved (some m) = true) :
    ∃ y, s.stage m = some y ∧ y.chained = true := by
  have hany : (s.stage m).any Stage.chained = true := h
  cases hy : s.stage m with
  | none =>
    rw [hy] at hany
    cases hany
  | some y =>
    rw [hy] at hany
    exact ⟨y, rfl, hany⟩

/-- Once the promise it waits for is resolved, all earlier calls of the key are done. -/
theorem Inv.done_of_resolved (h : Inv s) (hx : s.stage i = some x) (hk : x.key = some k)
    (hresolved : s.resolved x.currentQueue = true) (hj : j < i) (hy : s.stage j = some y)
    (hyk : y.key = some k) : y.done = true := by
  rcases h.behind i x k hx hk j hj y hy hyk with hdone | ⟨m, hm, hjm⟩
  · exact hdone
  · rw [hm] at hresolved
    obtain ⟨z, hz, hchained⟩ := resolved_some hresolved
    obtain ⟨hstarted, hdone⟩ := started_of_chained hchained
    rcases Nat.eq_or_lt_of_le hjm with rfl | hlt
    · rw [hz] at hy
      rw [← Option.some.inj hy]
      exact hdone
    · obtain ⟨-, z', hz', hkey⟩ := h.link i x m hx hm
      obtain rfl := Option.some.inj (hz.symm.trans hz')
      exact h.fifo m z k hz hstarted (hkey.trans hk) j hlt y hy hyk

/-- What is resolved stays so when calls go forward. -/
theorem Moved.resolved (h : Moved s t i x y) (hchained : x.chained = true → y.chained = true)
    {q : Option Nat} (hq : s.resolved q = true) : t.resolved q = true := by
  cases q with
  | none => rfl
  | some m =>
    obtain ⟨z, hz, hzc⟩ := resolved_some hq
    show (t.stage m).any Stage.chained = true
    by_cases hm : m = i
    · rw [hm] at hz ⊢
      obtain rfl := Option.some.inj (h.1.symm.trans hz)
      rw [h.2.1]
      exact hchained hzc
    · rw [h.2.2 m hm, hz]
      exact hzc

/-- A call that keeps its key goes forward. -/
structure Forward (x y : Stage Path) : Prop where
  key : y.key = x.key
  currentQueue : y.currentQueue = x.currentQueue
  done : x.done = true → y.done = true
  chained : x.chained = true → y.chained = true
  registered : x.registered = true → y.registered = true

/-- What one call does when it goes forward; the queues that are deleted are those of keys whose
calls are all done. -/
theorem Inv.forward (h : Inv s) (hmoved : Moved s t i x y) (hforward : Forward x y)
    (hturn : y ≠ .queued → ∀ j < i, ∃ z, s.stage j = some z ∧ z.registered = true)
    (hstart : y.started = true → s.resolved y.currentQueue = true)
    (hlast : ∀ k j, t.fileMutationQueues.get? k = some j →
      s.fileMutationQueues.get? k = some j ∧ (j = i → y.done = false))
    (hfree : ∀ k, t.fileMutationQueues.get? k = none → s.fileMutationQueues.get? k = none ∨
      s.fileMutationQueues.get? k = some i ∧ x.started = true ∧ y.done = true) : Inv t := by
  obtain ⟨hx, hy, hother⟩ := id hmoved
  -- a call after the step is a call before it, with the same key and no less done
  have hback : ∀ j z, t.stage j = some z → ∃ w, s.stage j = some w ∧ Forward w z := by
    intro j z hz
    rcases hmoved.stage_cases hz with ⟨rfl, rfl⟩ | ⟨-, hz⟩
    · exact ⟨x, hx, hforward⟩
    · exact ⟨z, hz, ⟨rfl, rfl, id, id, id⟩⟩
  have hon : ∀ j w, s.stage j = some w → ∃ z, t.stage j = some z ∧ Forward w z := by
    intro j w hw
    by_cases hj : j = i
    · rw [hj] at hw ⊢
      obtain rfl := Option.some.inj (hx.symm.trans hw)
      exact ⟨y, hy, hforward⟩
    · exact ⟨w, by rw [hother j hj, hw], ⟨rfl, rfl, id, id, id⟩⟩
  refine ⟨?_, ?_, ?_, ?_, ?_, ?_, ?_⟩
  · intro m z hz hne j hj
    obtain ⟨w, hw, hreg⟩ : ∃ w, s.stage j = some w ∧ w.registered = true := by
      rcases hmoved.stage_cases hz with ⟨rfl, rfl⟩ | ⟨-, hz⟩
      · exact hturn hne j hj
      · exact h.inTurn m z hz hne j hj
    obtain ⟨w', hw', hfw⟩ := hon j w hw
    exact ⟨w', hw', hfw.registered hreg⟩
  · intro k m hm
    obtain ⟨hm, hdone⟩ := hlast k m hm
    obtain ⟨w, hw, hwk, hwd, hmax⟩ := h.last k m hm
    have hrest : ∀ j z, t.stage j = some z → z.key = some k → j ≤ m := by
      intro j z hz hzk
      obtain ⟨w', hw', hfw⟩ := hback j z hz
      exact hmax j w' hw' (hfw.key ▸ hzk)
    by_cases hmi : m = i
    · refine ⟨y, by rw [hmi, hy], ?_, hdone hmi, hrest⟩
      rw [hmi] at hw
      obtain rfl := Option.some.inj (hx.symm.trans hw)
      exact hforward.key.trans hwk
    · exact ⟨w, by rw [hother m hmi, hw], hwk, hwd, hrest⟩
  · intro k hk m z hz hzk
    obtain ⟨w, hw, hfw⟩ := hback m z hz
    rcases hfree k hk with hnone | ⟨hlast', hstarted, hdone⟩
    · exact hfw.done (h.free k hnone m w hw (hfw.key ▸ hzk))
    · -- the last call of the key is done now, and the earlier ones were
      obtain ⟨w', hw', hwk', -, hmax⟩ := h.last k i hlast'
      obtain rfl := Option.some.inj (hx.symm.trans hw')
      rcases hmoved.stage_cases hz with ⟨-, rfl⟩ | ⟨hne, hz⟩
      · exact hdone
      · have hle := hmax m z hz hzk
        exact h.fifo i x k hx hstarted hwk' m (Nat.lt_of_le_of_ne hle hne) z hz hzk
  · intro j z m hz hm
    obtain ⟨w, hw, hfw⟩ := hback j z hz
    obtain ⟨hlt, v, hv, hvk⟩ := h.link j w m hw (hfw.currentQueue ▸ hm)
    obtain ⟨v', hv', hfv⟩ := hon m v hv
    exact ⟨hlt, v', hv', hfv.key.trans (hvk.trans hfw.key.symm)⟩
  · intro m z k hz hzk j hj v hv hvk
    obtain ⟨w, hw, hfw⟩ := hback m z hz
    obtain ⟨v', hv', hfv⟩ := hback j v hv
    rcases h.behind m w k hw (hfw.key ▸ hzk) j hj v' hv' (hfv.key ▸ hvk) with hd | ⟨q, hq, hle⟩
    · exact .inl (hfv.done hd)
    · exact .inr ⟨q, hfw.currentQueue.trans hq, hle⟩
  · intro m z k hz hstarted hzk j hj v hv hvk
    obtain ⟨v', hv', hfv⟩ := hback j v hv
    refine hfv.done ?_
    rcases hmoved.stage_cases hz with ⟨rfl, rfl⟩ | ⟨-, hz⟩
    · exact h.done_of_resolved hx (hforward.key ▸ hzk) (hforward.currentQueue ▸ hstart hstarted) hj
        hv' (hfv.key ▸ hvk)
    · exact h.fifo m z k hz hstarted hzk j hj v' hv' (hfv.key ▸ hvk)
  · intro m z hz hstarted
    refine hmoved.resolved hforward.chained ?_
    rcases hmoved.stage_cases hz with ⟨rfl, rfl⟩ | ⟨-, hz⟩
    · exact hstart hstarted
    · exact h.passed m z hz hstarted

/-- A call that is registered stands in front of one that is not. -/
theorem Inv.lt_of_key (h : Inv s) (hx : s.stage i = some x) (hx' : x.registered = false)
    (hy : s.stage j = some y) (hk : y.key ≠ none) : j < i := by
  rcases Nat.lt_trichotomy j i with hlt | rfl | hgt
  · exact hlt
  · obtain rfl := Option.some.inj (hx.symm.trans hy)
    cases x <;> first | exact absurd rfl hk | cases hx'
  · have hne : y ≠ .queued := fun heq => hk (by rw [heq]; rfl)
    obtain ⟨x', hx'', hreg⟩ := h.inTurn j y hy hne i hgt
    obtain rfl := Option.some.inj (hx.symm.trans hx'')
    rw [hx'] at hreg
    cases hreg

/-- A registration: the call goes behind the last one of its key. -/
theorem Inv.register (h : Inv s) (hx : s.stage i = some (.looked (some k))) :
    Inv { s.setStage i (.waiting k (s.fileMutationQueues.get? k)) with
      fileMutationQueues := s.fileMutationQueues.set k i } := by
  have hmoved := moved_setStage hx (.waiting k (s.fileMutationQueues.get? k))
    (s.fileMutationQueues.set k i)
  have hqueues : ∀ k', ({ s.setStage i (.waiting k (s.fileMutationQueues.get? k)) with
      fileMutationQueues := s.fileMutationQueues.set k i } : State Path).fileMutationQueues.get? k'
        = if k = k' then some i else s.fileMutationQueues.get? k' := fun k' =>
          JsMap.get?_set _ _ _ _
  generalize { s.setStage i (.waiting k (s.fileMutationQueues.get? k)) with
    fileMutationQueues := s.fileMutationQueues.set k i } = t at hmoved hqueues ⊢
  obtain ⟨-, hy, hother⟩ := id hmoved
  -- the calls that have a key stand in front
  have hfront : ∀ j z, s.stage j = some z → ∀ k', z.key = some k' → j < i := fun j z hz k' hk' =>
    h.lt_of_key hx rfl hz (by rw [hk']; exact Option.some_ne_none _)
  refine ⟨?_, ?_, ?_, ?_, ?_, ?_, ?_⟩
  · intro m z hz hne j hj
    by_cases hji : j = i
    · exact ⟨_, hji ▸ hy, rfl⟩
    · rw [hother j hji]
      rcases hmoved.stage_cases hz with ⟨rfl, -⟩ | ⟨-, hz⟩
      · exact h.inTurn m _ hx (by simp) j hj
      · exact h.inTurn m z hz hne j hj
  · intro k' m hm
    rw [hqueues] at hm
    by_cases hk : k = k'
    · rw [if_pos hk] at hm
      obtain rfl := Option.some.inj hm
      refine ⟨_, hy, by rw [← hk]; rfl, rfl, fun j z hz hzk => ?_⟩
      rcases hmoved.stage_cases hz with ⟨rfl, -⟩ | ⟨-, hz⟩
      · exact Nat.le_refl _
      · exact Nat.le_of_lt (hfront j z hz k' hzk)
    · rw [if_neg hk] at hm
      obtain ⟨w, hw, hwk, hwd, hmax⟩ := h.last k' m hm
      have hmi : m ≠ i := Nat.ne_of_lt (hfront m w hw k' hwk)
      refine ⟨w, by rw [hother m hmi, hw], hwk, hwd, fun j z hz hzk => ?_⟩
      rcases hmoved.stage_cases hz with ⟨-, rfl⟩ | ⟨-, hz⟩
      · exact absurd (Option.some.inj hzk) hk
      · exact hmax j z hz hzk
  · intro k' hk' m z hz hzk
    rw [hqueues] at hk'
    by_cases hk : k = k'
    · rw [if_pos hk] at hk'
      cases hk'
    · rw [if_neg hk] at hk'
      rcases hmoved.stage_cases hz with ⟨-, rfl⟩ | ⟨-, hz⟩
      · exact absurd (Option.some.inj hzk) hk
      · exact h.free k' hk' m z hz hzk
  · intro j z m hz hm
    rcases hmoved.stage_cases hz with ⟨rfl, rfl⟩ | ⟨-, hz⟩
    · obtain ⟨w, hw, hwk, -, -⟩ := h.last k m hm
      have hlt := hfront m w hw k hwk
      exact ⟨hlt, w, by rw [hother m (Nat.ne_of_lt hlt), hw], hwk⟩
    · obtain ⟨hlt, w, hw, hwk⟩ := h.link j z m hz hm
      have hzk : ∃ k', z.key = some k' := by
        cases z <;> first | exact ⟨_, rfl⟩ | cases hm
      obtain ⟨k', hk'⟩ := hzk
      have hmi : m ≠ i := Nat.ne_of_lt (hfront m w hw k' (hwk.trans hk'))
      exact ⟨hlt, w, by rw [hother m hmi, hw], hwk⟩
  · intro m z k' hz hzk j hj v hv hvk
    rcases hmoved.stage_cases hz with ⟨rfl, rfl⟩ | ⟨hmi, hz⟩
    · obtain rfl : k = k' := Option.some.inj hzk
      rw [hother j (Nat.ne_of_lt hj)] at hv
      cases hlast : s.fileMutationQueues.get? k with
      | none => exact .inl (h.free k hlast j v hv hvk)
      | some q =>
        obtain ⟨-, -, -, -, hmax⟩ := h.last k q hlast
        exact .inr ⟨q, rfl, hmax j v hv hvk⟩
    · have hlt := hfront m z hz k' hzk
      rw [hother j (Nat.ne_of_lt (Nat.lt_trans hj hlt))] at hv
      exact h.behind m z k' hz hzk j hj v hv hvk
  · intro m z k' hz hstarted hzk j hj v hv hvk
    rcases hmoved.stage_cases hz with ⟨-, rfl⟩ | ⟨-, hz⟩
    · cases hstarted
    · have hlt := hfront m z hz k' hzk
      rw [hother j (Nat.ne_of_lt (Nat.lt_trans hj hlt))] at hv
      exact h.fifo m z k' hz hstarted hzk j hj v hv hvk
  · intro m z hz hstarted
    rcases hmoved.stage_cases hz with ⟨-, rfl⟩ | ⟨-, hz⟩
    · cases hstarted
    · refine hmoved.resolved (fun hc => ?_) (h.passed m z hz hstarted)
      cases hc

/-! ## Steps -/

theorem stage_call (s : State Path) (path : Path) (j : Nat) :
    ({ s with calls := s.calls ++ [⟨path, .queued⟩] } : State Path).stage j
      = if j = s.calls.length then some .queued else s.stage j := by
  unfold State.stage
  dsimp only
  by_cases hj : j = s.calls.length
  · rw [if_pos hj, hj, List.getElem?_concat_length]
    rfl
  · rw [if_neg hj]
    rcases Nat.lt_or_gt_of_ne hj with hlt | hgt
    · rw [List.getElem?_append_left hlt]
    · have hnone : s.calls[j]? = none := List.getElem?_eq_none (by omega)
      have hnone' : (s.calls ++ [(⟨path, .queued⟩ : Call Path)])[j]? = none :=
        List.getElem?_eq_none (by simp; omega)
      rw [hnone, hnone']

/-- A new call has done nothing yet. -/
theorem Inv.call (h : Inv s)
    (hstage : ∀ j, t.stage j = if j = s.calls.length then some .queued else s.stage j)
    (hqueues : t.fileMutationQueues = s.fileMutationQueues) : Inv t := by
  have hon : ∀ j w, s.stage j = some w → t.stage j = some w := by
    intro j w hw
    have hlt : j < s.calls.length := by
      by_contra hge
      have hnone : s.stage j = none := by
        unfold State.stage
        rw [List.getElem?_eq_none (Nat.not_lt.mp hge)]
        rfl
      rw [hnone] at hw
      cases hw
    rw [hstage, if_neg (Nat.ne_of_lt hlt), hw]
  have hback : ∀ j z, t.stage j = some z → z ≠ .queued → s.stage j = some z := by
    intro j z hz hne
    rw [hstage] at hz
    by_cases hj : j = s.calls.length
    · rw [if_pos hj] at hz
      exact absurd (Option.some.inj hz).symm hne
    · rwa [if_neg hj] at hz
  have hkeyed : ∀ z : Stage Path, ∀ k, z.key = some k → z ≠ .queued := fun z k hk heq => by
    rw [heq] at hk
    cases hk
  have hresolved : ∀ q, s.resolved q = true → t.resolved q = true := by
    intro q hq
    cases q with
    | none => rfl
    | some m =>
      obtain ⟨z, hz, hc⟩ := resolved_some hq
      show (t.stage m).any Stage.chained = true
      rw [hon m z hz]
      exact hc
  refine ⟨?_, ?_, ?_, ?_, ?_, ?_, ?_⟩
  · intro m z hz hne j hj
    obtain ⟨w, hw, hreg⟩ := h.inTurn m z (hback m z hz hne) hne j hj
    exact ⟨w, hon j w hw, hreg⟩
  · intro k m hm
    rw [hqueues] at hm
    obtain ⟨w, hw, hwk, hwd, hmax⟩ := h.last k m hm
    exact ⟨w, hon m w hw, hwk, hwd, fun j z hz hzk => hmax j z (hback j z hz (hkeyed z k hzk)) hzk⟩
  · intro k hk m z hz hzk
    rw [hqueues] at hk
    exact h.free k hk m z (hback m z hz (hkeyed z k hzk)) hzk
  · intro j z m hz hm
    have hne : z ≠ .queued := fun heq => by
      rw [heq] at hm
      cases hm
    obtain ⟨hlt, w, hw, hwk⟩ := h.link j z m (hback j z hz hne) hm
    exact ⟨hlt, w, hon m w hw, hwk⟩
  · intro m z k hz hzk j hj v hv hvk
    exact h.behind m z k (hback m z hz (hkeyed z k hzk)) hzk j hj v
      (hback j v hv (hkeyed v k hvk)) hvk
  · intro m z k hz hstarted hzk j hj v hv hvk
    exact h.fifo m z k (hback m z hz (hkeyed z k hzk)) hstarted hzk j hj v
      (hback j v hv (hkeyed v k hvk)) hvk
  · intro m z hz hstarted
    have hne : z ≠ .queued := fun heq => by
      rw [heq] at hstarted
      cases hstarted
    exact hresolved _ (h.passed m z (hback m z hz hne) hstarted)

/-! ## What each step does -/

theorem stage_eq_some {c : Call Path} (h : s.calls[i]? = some c) : s.stage i = some c.stage := by
  rw [State.stage, h]
  rfl

theorem step_lookup {fails : Bool} (h : step links s (.lookup i fails) = some t) :
    ∃ path, s.calls[i]? = some ⟨path, .queued⟩ ∧ s.inTurn i = true ∧
      t = s.setStage i (.looked
        (if fails then none else some (getMutationQueueKey links s.existing path))) := by
  unfold step at h
  match hcall : s.calls[i]? with
  | some ⟨path, .queued⟩ =>
    simp only [hcall] at h
    by_cases hturn : s.inTurn i = true
    · rw [if_pos hturn] at h
      exact ⟨path, rfl, hturn, (Option.some.inj h).symm⟩
    · rw [if_neg hturn] at h
      cases h
  | some ⟨path, .looked _⟩ | some ⟨path, .rejected⟩ | some ⟨path, .waiting _ _⟩
  | some ⟨path, .running _ _⟩ | some ⟨path, .settled _ _ _⟩ | none =>
    simp only [hcall] at h
    cases h

theorem step_register (h : step links s (.register i) = some t) :
    s.stage i = some (.looked none) ∧ t = s.setStage i .rejected ∨
      ∃ key, s.stage i = some (.looked (some key)) ∧
        t = { s.setStage i (.waiting key (s.fileMutationQueues.get? key)) with
          fileMutationQueues := s.fileMutationQueues.set key i } := by
  unfold step at h
  match hstage : s.stage i with
  | some (.looked none) =>
    simp only [hstage] at h
    exact .inl ⟨rfl, (Option.some.inj h).symm⟩
  | some (.looked (some key)) =>
    simp only [hstage] at h
    exact .inr ⟨key, rfl, (Option.some.inj h).symm⟩
  | some .queued | some .rejected | some (.waiting _ _) | some (.running _ _)
  | some (.settled _ _ _) | none =>
    simp only [hstage] at h
    cases h

theorem step_start (h : step links s (.start i) = some t) :
    ∃ key q, s.stage i = some (.waiting key q) ∧ s.resolved q = true ∧
      t = s.setStage i (.running key q) := by
  unfold step at h
  match hstage : s.stage i with
  | some (.waiting key q) =>
    simp only [hstage] at h
    by_cases hq : s.resolved q = true
    · rw [if_pos hq] at h
      exact ⟨key, q, rfl, hq, (Option.some.inj h).symm⟩
    · rw [if_neg hq] at h
      cases h
  | some .queued | some (.looked _) | some .rejected | some (.running _ _)
  | some (.settled _ _ _) | none =>
    simp only [hstage] at h
    cases h

theorem step_finish (h : step links s (.finish i) = some t) :
    ∃ key q, s.stage i = some (.running key q) ∧
      t = { s.setStage i (.settled key q false) with
        fileMutationQueues :=
          if s.fileMutationQueues.get? key = some i then s.fileMutationQueues.delete key
          else s.fileMutationQueues } := by
  unfold step at h
  match hstage : s.stage i with
  | some (.running key q) =>
    simp only [hstage] at h
    exact ⟨key, q, rfl, (Option.some.inj h).symm⟩
  | some .queued | some (.looked _) | some .rejected | some (.waiting _ _)
  | some (.settled _ _ _) | none =>
    simp only [hstage] at h
    cases h

theorem step_chain (h : step links s (.chain i) = some t) :
    ∃ key q, s.stage i = some (.settled key q false) ∧ s.resolved q = true ∧
      t = s.setStage i (.settled key q true) := by
  unfold step at h
  match hstage : s.stage i with
  | some (.settled key q false) =>
    simp only [hstage] at h
    by_cases hq : s.resolved q = true
    · rw [if_pos hq] at h
      exact ⟨key, q, rfl, hq, (Option.some.inj h).symm⟩
    · rw [if_neg hq] at h
      cases h
  | some .queued | some (.looked _) | some .rejected | some (.waiting _ _) | some (.running _ _)
  | some (.settled _ _ true) | none =>
    simp only [hstage] at h
    cases h

theorem inTurn_iff : s.inTurn i = true ↔ ∀ j < i, ∃ y, s.stage j = some y ∧
    y.registered = true := by
  unfold State.inTurn
  rw [List.all_eq_true]
  constructor
  · intro h j hj
    have hany := h j (List.mem_range.mpr hj)
    cases hy : s.stage j with
    | none =>
      rw [hy] at hany
      cases hany
    | some y =>
      rw [hy] at hany
      exact ⟨y, rfl, hany⟩
  · intro h j hj
    obtain ⟨y, hy, hreg⟩ := h j (List.mem_range.mp hj)
    rw [hy]
    exact hreg

theorem Inv.of_queue (h : Inv s) (hk : s.fileMutationQueues.get? k = some i)
    (hx : s.stage i = some x) : x.key = some k ∧ x.done = false := by
  obtain ⟨x', hx', hkey, hdone, -⟩ := h.last k i hk
  obtain rfl := Option.some.inj (hx.symm.trans hx')
  exact ⟨hkey, hdone⟩

/-- A step keeps the invariant. -/
theorem inv_step (h : Inv s) {a : Action Path} (hstep : step links s a = some t) : Inv t := by
  cases a with
  | call path =>
    obtain rfl := Option.some.inj hstep
    exact h.call (stage_call s path) rfl
  | lookup i fails =>
    obtain ⟨path, hcall, hturn, rfl⟩ := step_lookup hstep
    have hx := stage_eq_some hcall
    exact h.forward (moved_setStage hx _ s.fileMutationQueues)
      ⟨rfl, rfl, fun h => (by cases h), fun h => (by cases h), fun h => (by cases h)⟩
      (fun _ => inTurn_iff.mp hturn) (fun h => (by cases h))
      (fun k j hj => ⟨hj, fun _ => rfl⟩) (fun k hk => .inl hk)
  | register i =>
    rcases step_register hstep with ⟨hx, rfl⟩ | ⟨key, hx, rfl⟩
    · exact h.forward (moved_setStage hx _ s.fileMutationQueues)
        ⟨rfl, rfl, fun _ => rfl, fun h => (by cases h), fun _ => rfl⟩
        (fun _ => h.inTurn i _ hx (by simp)) (fun h => (by cases h))
        (fun k j hj => ⟨hj, fun hji => (by cases (h.of_queue (hji ▸ hj) hx).1)⟩)
        (fun k hk => .inl hk)
    · exact h.register hx
  | start i =>
    obtain ⟨key, q, hx, hq, rfl⟩ := step_start hstep
    exact h.forward (moved_setStage hx _ s.fileMutationQueues)
      ⟨rfl, rfl, fun h => (by cases h), fun h => (by cases h), fun _ => rfl⟩
      (fun _ => h.inTurn i _ hx (by simp)) (fun _ => hq)
      (fun k j hj => ⟨hj, fun _ => rfl⟩) (fun k hk => .inl hk)
  | finish i =>
    obtain ⟨key, q, hx, rfl⟩ := step_finish hstep
    have hpassed : s.resolved q = true := h.passed i _ hx rfl
    refine h.forward (moved_setStage hx _ _)
      ⟨rfl, rfl, fun _ => rfl, fun h => (by cases h), fun _ => rfl⟩
      (fun _ => h.inTurn i _ hx (by simp)) (fun _ => hpassed) ?_ ?_
    · intro k j hj
      dsimp only at hj
      by_cases hlast : s.fileMutationQueues.get? key = some i
      · rw [if_pos hlast, JsMap.get?_delete] at hj
        by_cases hkey : key = k
        · rw [if_pos hkey] at hj
          cases hj
        · rw [if_neg hkey] at hj
          exact ⟨hj, fun hji => absurd (Option.some.inj (h.of_queue (hji ▸ hj) hx).1) hkey⟩
      · rw [if_neg hlast] at hj
        refine ⟨hj, fun hji => absurd ?_ hlast⟩
        have hkey : key = k := Option.some.inj (h.of_queue (hji ▸ hj) hx).1
        rw [hkey, ← hji]
        exact hj
    · intro k hk
      dsimp only at hk
      by_cases hlast : s.fileMutationQueues.get? key = some i
      · rw [if_pos hlast, JsMap.get?_delete] at hk
        by_cases hkey : key = k
        · exact .inr ⟨hkey ▸ hlast, rfl, rfl⟩
        · rw [if_neg hkey] at hk
          exact .inl hk
      · rw [if_neg hlast] at hk
        exact .inl hk
  | chain i =>
    obtain ⟨key, q, hx, hq, rfl⟩ := step_chain hstep
    exact h.forward (moved_setStage hx _ s.fileMutationQueues)
      ⟨rfl, rfl, fun _ => rfl, fun h => (by cases h), fun _ => rfl⟩
      (fun _ => h.inTurn i _ hx (by simp)) (fun _ => hq)
      (fun k j hj => ⟨hj, fun hji => (by cases (h.of_queue (hji ▸ hj) hx).2)⟩)
      (fun k hk => .inl hk)
  | change file made =>
    obtain rfl := Option.some.inj hstep
    exact ⟨h.inTurn, h.last, h.free, h.link, h.behind, h.fifo, h.passed⟩

/-- The calls for one file that are registered and not done are under one key. -/
def OneKey (links : Links Path) (s : State Path) : Prop :=
  ∀ i j x y, i < j → SameFile links s i j → s.stage i = some x → s.stage j = some y →
    x.key ≠ none → y.key ≠ none → x.done = false → x.key = y.key

/-- A step that registers no call. -/
theorem OneKey.mono (h : OneKey links s)
    (hback : ∀ j z, t.stage j = some z → z.key ≠ none →
      ∃ w, s.stage j = some w ∧ z.key = w.key ∧ (z.done = false → w.done = false))
    (hpath : ∀ j w, s.stage j = some w → t.path j = s.path j) : OneKey links t := by
  intro i j x y hij hsame hx hy hxk hyk hdone
  obtain ⟨w, hw, hwk, hwd⟩ := hback i x hx hxk
  obtain ⟨v, hv, hvk, -⟩ := hback j y hy hyk
  have hsame' : SameFile links s i j := by
    unfold SameFile at hsame ⊢
    rwa [hpath i w hw, hpath j v hv] at hsame
  rw [hwk, hvk]
  exact h i j w v hij hsame' hw hv (hwk ▸ hxk) (hvk ▸ hyk) (hwd hdone)

theorem OneKey.forward (h : OneKey links s) (hmoved : Moved s t i x y) (hforward : Forward x y)
    (hpath : ∀ j, t.path j = s.path j) : OneKey links t := by
  refine h.mono (fun j z hz _ => ?_) fun j _ _ => hpath j
  rcases hmoved.stage_cases hz with ⟨rfl, rfl⟩ | ⟨-, hz⟩
  · refine ⟨x, hmoved.1, hforward.key, fun hd => ?_⟩
    rw [Bool.eq_false_iff] at hd ⊢
    exact fun hx => hd (hforward.done hx)
  · exact ⟨z, hz, rfl, id⟩

/-- A call that goes behind the others for its file, under their key. -/
theorem OneKey.register (h : OneKey links s) (hinv : Inv s)
    (hx : s.stage i = some (.looked (some k))) (hagree : keysAgree links s (.register i) = true) :
    OneKey links { s.setStage i (.waiting k (s.fileMutationQueues.get? k)) with
      fileMutationQueues := s.fileMutationQueues.set k i } := by
  have hmoved := moved_setStage hx (.waiting k (s.fileMutationQueues.get? k))
    (s.fileMutationQueues.set k i)
  have hpath : ∀ j, ({ s.setStage i (.waiting k (s.fileMutationQueues.get? k)) with
      fileMutationQueues := s.fileMutationQueues.set k i } : State Path).path j = s.path j :=
    fun j => path_setStage s i j _
  generalize { s.setStage i (.waiting k (s.fileMutationQueues.get? k)) with
    fileMutationQueues := s.fileMutationQueues.set k i } = t at hmoved hpath ⊢
  intro j m z w hjm hsame hz hw hzk hwk hdone
  have hsame' : SameFile links s j m := by
    unfold SameFile at hsame ⊢
    rwa [hpath, hpath] at hsame
  rcases hmoved.stage_cases hw with ⟨rfl, rfl⟩ | ⟨-, hw⟩
  · -- the new one
    have hz' : s.stage j = some z := by rwa [hmoved.2.2 j (Nat.ne_of_lt hjm)] at hz
    obtain ⟨c, hc, rfl⟩ := Option.map_eq_some_iff.mp hz'
    obtain ⟨c', hc', hstage⟩ := Option.map_eq_some_iff.mp hx
    obtain ⟨path, stage⟩ := c'
    obtain rfl : stage = .looked (some k) := hstage
    unfold keysAgree at hagree
    simp only [hc'] at hagree
    have hone := List.all_eq_true.mp hagree c (List.mem_of_getElem? hc)
    have hfile : links.target c.path = links.target path := by
      unfold SameFile State.path at hsame'
      rw [hc, hc'] at hsame'
      exact Option.some.inj hsame'
    simp only [hfile, hdone, hzk, ne_eq, not_true_eq_false, decide_false, Bool.or_false,
      Bool.false_or, decide_eq_true_eq] at hone
    exact hone
  · have hmi : m < i := hinv.lt_of_key hx rfl hw hwk
    rw [hmoved.2.2 j (Nat.ne_of_lt (Nat.lt_trans hjm hmi))] at hz
    exact h j m z w hjm hsame' hz hw hzk hwk hdone

/-- A step with agreeing keys keeps the calls for one file under one key. -/
theorem oneKey_step (h : OneKey links s) (hinv : Inv s) {a : Action Path}
    (hagree : keysAgree links s a = true) (hstep : step links s a = some t) : OneKey links t := by
  cases a with
  | call path =>
    obtain rfl := Option.some.inj hstep
    refine h.mono (fun j z hz hk => ?_) fun j w hw => ?_
    · rw [stage_call] at hz
      by_cases hj : j = s.calls.length
      · rw [if_pos hj] at hz
        obtain rfl := Option.some.inj hz
        exact absurd rfl hk
      · rw [if_neg hj] at hz
        exact ⟨z, hz, rfl, id⟩
    · obtain ⟨c, hc, -⟩ := Option.map_eq_some_iff.mp hw
      obtain ⟨hlt, -⟩ := List.getElem?_eq_some_iff.mp hc
      show Option.map _ (s.calls ++ _)[j]? = Option.map _ s.calls[j]?
      rw [List.getElem?_append_left hlt]
  | lookup i fails =>
    obtain ⟨path, hcall, -, rfl⟩ := step_lookup hstep
    exact h.forward (moved_setStage (stage_eq_some hcall) _ s.fileMutationQueues)
      ⟨rfl, rfl, fun h => (by cases h), fun h => (by cases h), fun h => (by cases h)⟩
      fun j => path_setStage s i j _
  | register i =>
    rcases step_register hstep with ⟨hx, rfl⟩ | ⟨key, hx, rfl⟩
    · exact h.forward (moved_setStage hx _ s.fileMutationQueues)
        ⟨rfl, rfl, fun _ => rfl, fun h => (by cases h), fun _ => rfl⟩
        fun j => path_setStage s i j _
    · exact h.register hinv hx hagree
  | start i =>
    obtain ⟨key, q, hx, -, rfl⟩ := step_start hstep
    exact h.forward (moved_setStage hx _ s.fileMutationQueues)
      ⟨rfl, rfl, fun h => (by cases h), fun h => (by cases h), fun _ => rfl⟩
      fun j => path_setStage s i j _
  | finish i =>
    obtain ⟨key, q, hx, rfl⟩ := step_finish hstep
    exact h.forward (moved_setStage hx _ _)
      ⟨rfl, rfl, fun _ => rfl, fun h => (by cases h), fun _ => rfl⟩
      fun j => path_setStage s i j _
  | chain i =>
    obtain ⟨key, q, hx, -, rfl⟩ := step_chain hstep
    exact h.forward (moved_setStage hx _ s.fileMutationQueues)
      ⟨rfl, rfl, fun _ => rfl, fun h => (by cases h), fun _ => rfl⟩
      fun j => path_setStage s i j _
  | change file made =>
    obtain rfl := Option.some.inj hstep
    exact h

/-! ## What follows for every state -/

omit [DecidableEq Path] in
theorem key_of_registered (h : x.registered = true) (hdone : x.done = false) : x.key ≠ none := by
  cases x with
  | queued => cases h
  | looked => cases h
  | rejected => cases hdone
  | waiting | running | settled => exact Option.some_ne_none _

omit [DecidableEq Path] in
theorem key_of_started (h : x.started = true) : x.key ≠ none := by
  cases x <;> first | exact Option.some_ne_none _ | cases h

/-- Callbacks for one file are called in call order. -/
theorem done_of_started (hinv : Inv s) (h : OneKey links s) (hij : i < j)
    (hsame : SameFile links s i j) (hx : s.stage i = some x) (hy : s.stage j = some y)
    (hstarted : y.started = true) : x.done = true := by
  have hne : y ≠ .queued := fun heq => by
    rw [heq] at hstarted
    cases hstarted
  obtain ⟨x', hx', hreg⟩ := hinv.inTurn j y hy hne i hij
  obtain rfl := Option.some.inj (hx.symm.trans hx')
  by_contra hdone
  have hdone' := Bool.eq_false_iff.mpr hdone
  have hkey := key_of_registered hreg hdone'
  have hsamekey := h i j x y hij hsame hx hy hkey (key_of_started hstarted) hdone'
  obtain ⟨k, hk⟩ := Option.ne_none_iff_exists'.mp hkey
  exact hdone (hinv.fifo j y k hy hstarted (hsamekey ▸ hk) i hij x hx hk)

/-- One call less far from the end makes less to do. -/
theorem remaining_setStage (hx : s.stage i = some x) (hlt : y.steps < x.steps)
    (queues : JsMap Path Nat) :
    ({ s.setStage i y with fileMutationQueues := queues } : State Path).remaining <
    s.remaining := by
  have hcalls : ∀ (calls : List (Call Path)) (i : Nat) (c : Call Path), calls[i]? = some c →
      y.steps < c.stage.steps →
      ((calls.modify i fun c => { c with stage := y }).map fun c => c.stage.steps).sum
        < (calls.map fun c => c.stage.steps).sum := by
    intro calls
    induction calls with
    | nil =>
      intro i c hc
      cases hc
    | cons first calls ih =>
      intro i c hc hlt
      cases i with
      | zero =>
        obtain rfl := Option.some.inj hc
        simpa using hlt
      | succ i =>
        have := ih i c hc hlt
        simpa using this
  obtain ⟨c, hc, rfl⟩ := Option.map_eq_some_iff.mp hx
  exact hcalls s.calls i c hc hlt

/-- What the calls do by themselves comes to an end. -/
theorem remaining_lt {a : Action Path} (ha : a.byItself = true) (hstep : step links s a = some t) :
    t.remaining < s.remaining := by
  cases a with
  | lookup i fails =>
    obtain ⟨path, hcall, -, rfl⟩ := step_lookup hstep
    refine remaining_setStage (stage_eq_some hcall) ?_ s.fileMutationQueues
    show 2 < 3
    decide
  | register i =>
    rcases step_register hstep with ⟨hx, rfl⟩ | ⟨key, hx, rfl⟩
    · refine remaining_setStage hx ?_ s.fileMutationQueues
      show 0 < 2
      decide
    · refine remaining_setStage hx ?_ _
      show 1 < 2
      decide
  | chain i =>
    obtain ⟨key, q, hx, -, rfl⟩ := step_chain hstep
    refine remaining_setStage hx ?_ s.fileMutationQueues
    show 0 < 1
    decide
  | call path => cases ha
  | start i => cases ha
  | finish i => cases ha
  | change file made => cases ha

/-- Once the calls can do nothing by themselves, all are registered. -/
theorem registered_of_quiet
    (hquiet : ∀ a : Action Path, a.byItself = true → step links s a = none) :
    ∀ i x, s.stage i = some x → x.registered = true := by
  intro i
  induction i using Nat.strongRecOn with
  | ind i ih =>
    intro x hx
    obtain ⟨c, hc, rfl⟩ := Option.map_eq_some_iff.mp hx
    obtain ⟨hlt, -⟩ := List.getElem?_eq_some_iff.mp hc
    have hturn : s.inTurn i = true := by
      rw [inTurn_iff]
      intro j hj
      have hj' : s.calls[j]? = some s.calls[j] := List.getElem?_eq_getElem (Nat.lt_trans hj hlt)
      exact ⟨_, stage_eq_some hj', ih j hj _ (stage_eq_some hj')⟩
    obtain ⟨path, stage⟩ := c
    cases stage with
    | queued =>
      have hlookup := hquiet (.lookup i false) rfl
      unfold step at hlookup
      simp only [hc, hturn] at hlookup
      cases hlookup
    | looked key =>
      have hregister := hquiet (.register i) rfl
      unfold step at hregister
      cases key <;> simp only [hx] at hregister <;> cases hregister
    | rejected | waiting | running | settled => rfl

/-- A callback that cannot be called then waits for an earlier call of its key. -/
theorem runnable_of_quiet (h : Inv s)
    (hquiet : ∀ a : Action Path, a.byItself = true → step links s a = none)
    (hx : s.stage i = some x) (hdone : x.done = false) :
    x.started = true ∨ (step links s (.start i)).isSome = true ∨
      ∃ j < i, ∃ y, s.stage j = some y ∧ y.done = false ∧ y.key = x.key := by
  have hreg := registered_of_quiet hquiet i x hx
  cases x with
  | queued => cases hreg
  | looked => cases hreg
  | rejected => cases hdone
  | running => exact .inl rfl
  | settled => cases hdone
  | waiting key q =>
    by_cases hq : s.resolved q = true
    · refine .inr (.inl ?_)
      unfold step
      simp only [hx, hq]
      rfl
    · cases q with
      | none => exact absurd rfl hq
      | some m =>
        obtain ⟨hlt, y, hy, hkey⟩ := h.link i _ m hx rfl
        refine .inr (.inr ⟨m, hlt, y, hy, ?_, hkey⟩)
        cases y with
        | queued => rfl
        | looked => rfl
        | waiting => rfl
        | running => rfl
        | rejected => cases hkey
        | settled key' q' chained =>
          cases chained with
          | true =>
            have hresolved : s.resolved (some m) = true := by
              show (s.stage m).any Stage.chained = true
              rw [hy]
              rfl
            exact absurd hresolved hq
          | false =>
            -- its `chainedQueue` could still be resolved
            have hpassed : s.resolved q' = true := h.passed m _ hy rfl
            have hchain := hquiet (.chain m) rfl
            unfold step at hchain
            simp only [hy, hpassed] at hchain
            cases hchain

theorem queues_empty (h : Inv s) (hdone : ∀ i x, s.stage i = some x → x.done = true) :
    s.fileMutationQueues = JsMap.empty := by
  refine JsMap.ext ?_
  show s.fileMutationQueues.entries = []
  rw [List.eq_nil_iff_forall_not_mem]
  rintro ⟨k, i⟩ hmem
  have hk : k ∈ s.fileMutationQueues.keys := List.mem_map.mpr ⟨(k, i), hmem, rfl⟩
  cases hget : s.fileMutationQueues.get? k with
  | none => exact JsMap.get?_eq_none_iff.mp hget hk
  | some m =>
    obtain ⟨x, hx, -, hnot, -⟩ := h.last k m hget
    rw [hdone m x hx] at hnot
    cases hnot

theorem serialized (h : Inv s) (hone : OneKey links s) : Serialized links s where
  exclusive := by
    intro i j hij hsame k q k' q' hi hj
    rcases Nat.lt_or_gt_of_ne hij with hlt | hgt
    · cases done_of_started h hone hlt hsame hi hj rfl
    · cases done_of_started h hone hgt hsame.symm hj hi rfl
  inOrder := fun i j x y hij hsame hx hy => done_of_started h hone hij hsame hx hy
  stops := fun a t ha => remaining_lt ha
  runnable := fun hquiet i x hx hdone => runnable_of_quiet h hquiet hx hdone
  empty := queues_empty h

/-- In every run in which a call is registered under the key of the calls for its file that are
registered and not done, the mutations of a file are serialized. -/
theorem mutations_serialized (links : Links Path) (as : List (Action Path)) {s : State Path}
    (hrun : as.foldlM (fun s a => if keysAgree links s a then step links s a else none) initial
      = some s) : Serialized links s := by
  have h : Inv s ∧ OneKey links s := by
    refine Runs.run_induction_if (P := fun s => Inv s ∧ OneKey links s) ?_ as
      ⟨inv_initial, ?_⟩ hrun
    · intro s a t hs hagree hstep
      exact ⟨inv_step hs.1 hstep, oneKey_step hs.2 hs.1 hagree hstep⟩
    · intro i j x y _ _ hx
      cases hx
  exact serialized h.1 h.2

/-- The links of a directory that is reached under two names. -/
def sampleLinks : Links String where
  target p := if p = "/link/f" then "/real/f" else p
  target_target p := by split <;> simp_all

/-- Two calls for a file that exists, under both names. -/
def sampleRun : List (Action String) :=
  [.change "/real/f" true, .call "/link/f", .call "/real/f", .lookup 0 false, .register 0,
    .lookup 1 false, .register 1, .start 0]

theorem mutations_serialized_sample : ∃ s,
    sampleRun.foldlM (fun s a => if keysAgree sampleLinks s a then step sampleLinks s a else none)
      initial = some s ∧ Serialized sampleLinks s := by
  refine ⟨_, rfl, mutations_serialized sampleLinks sampleRun rfl⟩

/-- The first call is registered while the file is missing, makes it and is still running when the
second one is registered: both run at the same time. -/
def racingRun : List (Action String) :=
  [.call "/link/f", .lookup 0 false, .register 0, .start 0, .change "/real/f" true,
    .call "/link/f", .lookup 1 false, .register 1, .start 1]

theorem mutations_not_serialized : ¬ ∀ (links : Links String) (as : List (Action String))
    (s : State String), as.foldlM (step links) initial = some s → Serialized links s := by
  intro h
  have hrun : ∃ s, racingRun.foldlM (step sampleLinks) initial = some s ∧
      s.stage 0 = some (.running "/link/f" none) ∧ s.stage 1 = some (.running "/real/f" none) ∧
      SameFile sampleLinks s 0 1 := ⟨_, rfl, rfl, rfl, rfl⟩
  obtain ⟨s, hrun, hfirst, hsecond, hsame⟩ := hrun
  exact (h sampleLinks racingRun s hrun).exclusive 0 1 (by decide) hsame _ _ _ _ hfirst hsecond

end PiMono.CodingAgent.FileMutationQueue
