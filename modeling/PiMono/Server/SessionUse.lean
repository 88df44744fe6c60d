import PiMono.Lib.Runs
import PiMono.Server.Sessions

/-!
# Sessions in use are not disposed

A connection that is attached keeps its session in the map and undisposed, because
`maybeDispose` looks at the connections. What a command has acquired but not attached to
is not looked at: `Orderly` says of a step that it disposes of no such session, and `Inv`
holds as long as the steps are orderly. The argument goes through the promises of
`openingSessions`: the call that has made a promise is still waiting for it, so what the
promise returns is held (`Inv.opening`).
-/

namespace PiMono.Server.Sessions

namespace LiveSessionManager

variable {m m' : LiveSessionManager}

/-- The session that a task has acquired: `acquire` has returned it, or the creation that
the task awaits has made it. -/
def held? (m : LiveSessionManager) : Task → Option Nat
  | .attach _ live => some live
  | .awaitCreation _ _ creation _ =>
    match m.creation creation with
    | .made live => some live
    | _ => none
  | _ => none

/-- The session that a step disposes of. -/
def disposes? (m : LiveSessionManager) (a : Action) : Option Nat :=
  match a, m.agenda with
  | .next, .maybeDispose live :: _ => if m.mayDispose live then some live else none
  | _, _ => none

/-- A step that disposes of no session that a command has acquired and not yet attached to. -/
def Orderly (m : LiveSessionManager) (a : Action) : Prop :=
  ∀ live ∈ m.disposes? a, ∀ task ∈ m.tasks, m.held? task ≠ some live

instance (m : LiveSessionManager) (a : Action) : Decidable (m.Orderly a) :=
  inferInstanceAs (Decidable (∀ _ ∈ m.disposes? a, ∀ _ ∈ m.tasks, _))

/-- A session is the one of its id, and its disposal has not begun. -/
def Usable (m : LiveSessionManager) (live : Nat) : Prop :=
  m.liveSessions.get? (m.live live).id = some live ∧ (m.live live).disposing = .unset

/-- Sessions in use are usable, connections and sessions agree on who is attached, and no
operation starts on a runtime that has been told to dispose. -/
structure InUse (m : LiveSessionManager) : Prop where
  attached : ∀ live, ∀ c ∈ (m.live live).connections, m.Usable live
  agree : ∀ c id, id ∈ (m.connection c).sessionIds ↔
    ∃ live, m.liveSessions.get? id = some live ∧ c ∈ (m.live live).connections
  acquired : ∀ c live, Task.attach c live ∈ m.tasks → m.Usable live
  started : m.calls.Pairwise fun earlier later =>
    earlier.2 = .dispose → later.2 = .operation → earlier.1 ≠ later.1

structure Inv (m : LiveSessionManager) : Prop where
  entry : ∀ id live, m.liveSessions.get? id = some live →
    live < m.nextLive ∧ (m.live live).id = id
  ready : ∀ live, (m.live live).ready = true → live < m.nextLive
  attached : ∀ live, ∀ c ∈ (m.live live).connections, m.Usable live
  agree : ∀ c id, id ∈ (m.connection c).sessionIds ↔
    ∃ live, m.liveSessions.get? id = some live ∧ c ∈ (m.live live).connections
  held : ∀ task ∈ m.tasks, ∀ live, m.held? task = some live → m.Usable live
  waiting : ∀ c id k own, Task.awaitCreation c id k own ∈ m.tasks → k < m.nextCreation
  -- the call that has made a promise waits for it
  opening : ∀ id k, m.openingSessions.get? id = some k →
    ∃ c, Task.awaitCreation c id k true ∈ m.tasks
  pending : ∀ k id, m.creation k = .pending id → k < m.nextCreation ∧
    m.openingSessions.get? id = some k ∧ m.liveSessions.get? id = none
  disposed : ∀ live, (live, RuntimeCall.dispose) ∈ m.calls →
    live < m.nextLive ∧ (m.live live).disposing ≠ .unset
  started : m.calls.Pairwise fun earlier later =>
    earlier.2 = .dispose → later.2 = .operation → earlier.1 ≠ later.1

theorem inv_start : Inv start where
  entry := fun _ _ h => by cases h
  ready := fun _ h => by cases h
  attached := fun _ _ h => absurd h List.not_mem_nil
  agree := fun c id => by simp [start]
  held := fun _ h => absurd h List.not_mem_nil
  waiting := fun _ _ _ _ h => absurd h List.not_mem_nil
  opening := fun _ _ h => by cases h
  pending := fun _ _ h => by cases h
  disposed := fun _ h => absurd h List.not_mem_nil
  started := List.Pairwise.nil

theorem Inv.usable_entry (h : Inv m) {id : JsString} {live : Nat}
    (hget : m.liveSessions.get? id = some live) (hunset : (m.live live).disposing = .unset) :
    m.Usable live :=
  ⟨by rw [(h.entry id live hget).2]; exact hget, hunset⟩

/-! ## Tasks -/

theorem Inv.addTask (h : Inv m) {task : Task}
    (hheld : ∀ live, m.held? task = some live → m.Usable live)
    (hwaiting : ∀ c id k own, task = .awaitCreation c id k own → k < m.nextCreation) :
    Inv { m with tasks := m.tasks ++ [task] } where
  entry := h.entry
  ready := h.ready
  attached := h.attached
  agree := h.agree
  held := by
    intro t ht
    rcases List.mem_append.mp ht with ht | ht
    · exact h.held t ht
    · rw [List.mem_singleton.mp ht]
      exact hheld
  waiting := by
    intro c id k own ht
    rcases List.mem_append.mp ht with ht | ht
    · exact h.waiting c id k own ht
    · exact hwaiting c id k own (List.mem_singleton.mp ht).symm
  opening := by
    intro id k hk
    obtain ⟨c, hc⟩ := h.opening id k hk
    exact ⟨c, List.mem_append_left _ hc⟩
  pending := h.pending
  disposed := h.disposed
  started := h.started

/-- A task that has acquired nothing. -/
theorem Inv.addPlainTask (h : Inv m) {task : Task} (hheld : m.held? task = none)
    (hplain : ∀ c id k own, task ≠ .awaitCreation c id k own) :
    Inv { m with tasks := m.tasks ++ [task] } :=
  h.addTask (fun live hlive => by rw [hheld] at hlive; cases hlive)
    fun c id k own heq => absurd heq (hplain c id k own)

/-- A task ends; the call that has made a promise has forgotten it before. -/
theorem Inv.removeTask (h : Inv m) {task : Task}
    (hforgotten : ∀ c id k, task = .awaitCreation c id k true →
      m.openingSessions.get? id ≠ some k) :
    Inv { m with tasks := m.tasks.erase task } where
  entry := h.entry
  ready := h.ready
  attached := h.attached
  agree := h.agree
  held := fun t ht => h.held t (List.mem_of_mem_erase ht)
  waiting := fun c id k own ht => h.waiting c id k own (List.mem_of_mem_erase ht)
  opening := by
    intro id k hk
    obtain ⟨c, hc⟩ := h.opening id k hk
    refine ⟨c, (List.mem_erase_of_ne ?_).mpr hc⟩
    rintro rfl
    exact hforgotten c id k rfl hk
  pending := h.pending
  disposed := h.disposed
  started := h.started

theorem Inv.removePlainTask (h : Inv m) (task : Task)
    (hplain : ∀ c id k own, task ≠ .awaitCreation c id k own) :
    Inv { m with tasks := m.tasks.erase task } :=
  h.removeTask fun c id k heq => absurd heq (hplain c id k true)

theorem Inv.setAgenda (h : Inv m) (agenda : List Job) : Inv { m with agenda := agenda } :=
  ⟨h.entry, h.ready, h.attached, h.agree, h.held, h.waiting, h.opening, h.pending,
    h.disposed, h.started⟩

/-! ## Sessions -/

theorem setLive_field {β : Type} {live : Nat} {f : LiveSession → LiveSession}
    (field : LiveSession → β) (hf : field (f (m.live live)) = field (m.live live)) (k : Nat) :
    field ((m.setLive live f).live k) = field (m.live k) := by
  by_cases hk : k = live
  · subst hk
    simpa [setLive] using hf
  · simp [setLive, hk]

/-- A session changes in what nobody's being attached depends on. -/
theorem Inv.setLive (h : Inv m) {live : Nat} {f : LiveSession → LiveSession}
    (hid : (f (m.live live)).id = (m.live live).id)
    (hready : (f (m.live live)).ready = (m.live live).ready)
    (hconnections : (f (m.live live)).connections = (m.live live).connections)
    (hdisposing : (f (m.live live)).disposing = (m.live live).disposing) :
    Inv (m.setLive live f) := by
  have hids := setLive_field LiveSession.id hid
  have hreadies := setLive_field LiveSession.ready hready
  have hconns := setLive_field LiveSession.connections hconnections
  have hdisp := setLive_field LiveSession.disposing hdisposing
  have husable : ∀ k, m.Usable k → (m.setLive live f).Usable k := by
    intro k hk
    rw [Usable, hids, hdisp]
    exact hk
  constructor
  · intro id k hget
    rw [hids]
    exact h.entry id k hget
  · intro k hk
    rw [hreadies] at hk
    exact h.ready k hk
  · intro k c hc
    rw [hconns] at hc
    exact husable k (h.attached k c hc)
  · intro c id
    simp only [hconns]
    exact h.agree c id
  · exact fun t ht k hk => husable k (h.held t ht k hk)
  · exact h.waiting
  · exact h.opening
  · exact h.pending
  · intro k hk
    rw [hdisp]
    exact h.disposed k hk
  · exact h.started

/-- The disposal of a session goes on; nobody is attached to it or holds it. -/
theorem Inv.setDisposing (h : Inv m) {live : Nat} {f : LiveSession → LiveSession}
    (hid : (f (m.live live)).id = (m.live live).id)
    (hready : (f (m.live live)).ready = (m.live live).ready)
    (hconnections : (f (m.live live)).connections = (m.live live).connections)
    (hbegun : (f (m.live live)).disposing ≠ .unset)
    (hnobody : (m.live live).connections = [])
    (hfree : ∀ task ∈ m.tasks, m.held? task ≠ some live) : Inv (m.setLive live f) := by
  have hids := setLive_field LiveSession.id hid
  have hreadies := setLive_field LiveSession.ready hready
  have hconns := setLive_field LiveSession.connections hconnections
  have husable : ∀ k, k ≠ live → m.Usable k → (m.setLive live f).Usable k := by
    intro k hne hk
    rw [Usable, hids]
    simpa [LiveSessionManager.setLive, Usable, hne] using hk
  constructor
  · intro id k hget
    rw [hids]
    exact h.entry id k hget
  · intro k hk
    rw [hreadies] at hk
    exact h.ready k hk
  · intro k c hc
    rw [hconns] at hc
    refine husable k ?_ (h.attached k c hc)
    rintro rfl
    rw [hnobody] at hc
    cases hc
  · intro c id
    simp only [hconns]
    exact h.agree c id
  · intro t ht k hk
    refine husable k ?_ (h.held t ht k hk)
    rintro rfl
    exact hfree t ht hk
  · exact h.waiting
  · exact h.opening
  · exact h.pending
  · intro k hk
    refine ⟨(h.disposed k hk).1, ?_⟩
    by_cases heq : k = live
    · subst heq
      simpa [LiveSessionManager.setLive] using hbegun
    · simpa [LiveSessionManager.setLive, heq] using (h.disposed k hk).2
  · exact h.started

/-- A call of a runtime is remembered. -/
theorem Inv.call (h : Inv m) (live : Nat) (call : RuntimeCall)
    (hdispose : call = .dispose → live < m.nextLive ∧ (m.live live).disposing ≠ .unset)
    (hoperation : call = .operation → (m.live live).disposing = .unset) :
    Inv { m with calls := m.calls ++ [(live, call)] } := by
  refine ⟨h.entry, h.ready, h.attached, h.agree, h.held, h.waiting, h.opening, h.pending, ?_, ?_⟩
  · intro k hk
    rcases List.mem_append.mp hk with hk | hk
    · exact h.disposed k hk
    · obtain ⟨rfl, rfl⟩ := Prod.mk.inj (List.mem_singleton.mp hk)
      exact hdispose rfl
  · refine List.pairwise_append.mpr ⟨h.started, List.pairwise_singleton _ _, ?_⟩
    rintro ⟨k, earlier⟩ hk _ hlater hearlier hcall hsame
    rw [List.mem_singleton.mp hlater] at hcall hsame
    obtain rfl : k = live := hsame
    obtain rfl : earlier = .dispose := hearlier
    exact (h.disposed k hk).2 (hoperation hcall)

/-- The disposal of a session that nobody holds begins. -/
theorem Inv.maybeDispose (h : Inv m) {live : Nat}
    (hfree : m.mayDispose live = true → ∀ task ∈ m.tasks, m.held? task ≠ some live) :
    Inv (m.maybeDispose live) := by
  unfold LiveSessionManager.maybeDispose
  split
  · rename_i hmay
    obtain ⟨hready, hunset, hempty, -, -⟩ := of_decide_eq_true hmay
    have hbegun :
      Inv (m.setLive live fun l => { l with subscribed := false, disposing := .running }) :=
      h.setDisposing rfl rfl rfl (by simp) hempty (hfree hmay)
    refine hbegun.call live .dispose (fun _ => ⟨h.ready live hready, ?_⟩) (fun hop => by cases hop)
    simp [LiveSessionManager.setLive]
  · exact h

/-! ## Commands -/

theorem Inv.acquire (h : Inv m) (connection : Nat) (id : JsString) :
    Inv (m.acquire connection id) := by
  unfold LiveSessionManager.acquire
  split
  · rename_i live hget
    split
    · exact h
    split
    · exact h.addPlainTask rfl (by simp)
    · rename_i hunset
      refine h.addTask ?_ (by simp)
      intro k hk
      obtain rfl := Option.some.inj hk
      exact h.usable_entry hget (not_not.mp hunset)
  · rename_i hnone
    split
    · rename_i creation hopening
      -- the call that has made the promise holds what it returns
      obtain ⟨c, hc⟩ := h.opening id creation hopening
      refine h.addTask (fun live hlive => h.held _ hc live hlive) ?_
      intro c' id' k own heq
      cases heq
      exact h.waiting _ _ _ _ hc
    · rename_i hopening
      have hsame : ∀ task ∈ m.tasks, held? { m with
          creation := Function.update m.creation m.nextCreation (.pending id) } task
            = m.held? task := by
        intro task htask
        cases task with
        | awaitCreation c id' k own =>
          have hk := h.waiting c id' k own htask
          simp [held?, Function.update_of_ne (Nat.ne_of_lt hk)]
        | _ => rfl
      constructor
      · exact h.entry
      · exact h.ready
      · exact h.attached
      · exact h.agree
      · intro task htask live hlive
        rcases List.mem_append.mp htask with htask | htask
        · exact h.held task htask live ((hsame task htask).symm.trans hlive)
        · rw [List.mem_singleton.mp htask] at hlive
          simp [held?] at hlive
      · intro c id' k own htask
        rcases List.mem_append.mp htask with htask | htask
        · exact Nat.lt_succ_of_lt (h.waiting c id' k own htask)
        · cases List.mem_singleton.mp htask
          exact Nat.lt_succ_self _
      · intro id' k hk
        show ∃ c, _ ∈ m.tasks ++ _
        rw [JsMap.get?_set] at hk
        split at hk
        · rename_i heq
          subst heq
          obtain rfl := Option.some.inj hk
          exact ⟨connection, List.mem_append_right _ (List.mem_singleton_self _)⟩
        · obtain ⟨c, hc⟩ := h.opening id' k hk
          exact ⟨c, List.mem_append_left _ hc⟩
      · intro k id' hk
        show k < m.nextCreation + 1 ∧ (m.openingSessions.set id m.nextCreation).get?
          id' = some k ∧ _
        replace hk : Function.update m.creation m.nextCreation (.pending id) k = .pending id' := hk
        by_cases heq : k = m.nextCreation
        · subst heq
          rw [Function.update_self] at hk
          obtain rfl := Creation.pending.inj hk
          exact ⟨Nat.lt_succ_self _, by simp, hnone⟩
        · rw [Function.update_of_ne heq] at hk
          obtain ⟨hlt, hopen, hlive⟩ := h.pending k id' hk
          have hne : id ≠ id' := by
            rintro rfl
            rw [hopening] at hopen
            cases hopen
          exact ⟨Nat.lt_succ_of_lt hlt, by rw [JsMap.get?_set, if_neg hne]; exact hopen, hlive⟩
      · exact h.disposed
      · exact h.started

/-- Who is attached to a session changes, as its connections do. -/
theorem Inv.setAttached (h : Inv m) {connection : Nat → ConnectionState}
    {connections : Nat → List Nat}
    (hattached : ∀ k, ∀ c ∈ connections k, m.Usable k)
    (hagree : ∀ c id, id ∈ (connection c).sessionIds ↔
      ∃ k, m.liveSessions.get? id = some k ∧ c ∈ connections k) :
    Inv { m with
      connection := connection
      live := fun k => { m.live k with connections := connections k } } where
  entry := h.entry
  ready := h.ready
  attached := hattached
  agree := hagree
  held := h.held
  waiting := h.waiting
  opening := h.opening
  pending := h.pending
  disposed := h.disposed
  started := h.started

theorem setLive_connections (m : LiveSessionManager) (live : Nat) (change : List Nat → List Nat) :
    (m.setLive live fun l => { l with connections := change l.connections }) = { m with
      live := fun k => { m.live k with
        connections := if k = live then change (m.live k).connections
          else (m.live k).connections } } := by
  unfold setLive
  congr 1
  funext k
  by_cases hk : k = live
  · subst hk
    simp
  · simp [hk]

/-- `attach` adds a connection to a session that is usable. -/
theorem Inv.attach (h : Inv m) {connection live : Nat} (husable : m.Usable live) :
    Inv (m.attach connection live) := by
  unfold LiveSessionManager.attach
  split
  · exact h.setAgenda _
  · rw [setLive_connections]
    refine h.setAttached ?_ ?_
    · intro k c hc
      by_cases hk : k = live
      · rw [hk]
        exact husable
      · rw [if_neg hk] at hc
        exact h.attached k c hc
    · intro c id
      by_cases hc : c = connection
      · subst hc
        simp only [setConnection, Function.update_self, List.mem_insert_iff]
        rw [h.agree]
        constructor
        · rintro (rfl | ⟨k, hget, hmem⟩)
          · exact ⟨live, husable.1, by simp⟩
          · refine ⟨k, hget, ?_⟩
            split
            · exact List.mem_insert_of_mem hmem
            · exact hmem
        · rintro ⟨k, hget, hmem⟩
          by_cases hk : k = live
          · subst hk
            exact Or.inl (h.entry id k hget).2.symm
          · rw [if_neg hk] at hmem
            exact Or.inr ⟨k, hget, hmem⟩
      · simp only [setConnection, Function.update_of_ne hc]
        rw [h.agree]
        refine exists_congr fun k => and_congr_right fun _ => ?_
        split
        · simp [List.mem_insert_iff, hc]
        · rfl

/-- A connection leaves the sessions of some ids. -/
theorem Inv.leave (h : Inv m) {connection : Nat} (left : JsString → Prop) [DecidablePred left]
    (leaves : Nat → Prop) [DecidablePred leaves]
    (hleaves : ∀ id k, m.liveSessions.get? id = some k →
      connection ∈ (m.live k).connections → (leaves k ↔ left id))
    {state : ConnectionState}
    (hstate : state.sessionIds = (m.connection connection).sessionIds.filter fun id => ¬ left id) :
    Inv { m with
      connection := Function.update m.connection connection state
      live := fun k => { m.live k with
        connections := if leaves k then (m.live k).connections.filter (· ≠ connection)
          else (m.live k).connections } } := by
  have hsub : ∀ k c, c ∈ (if leaves k then (m.live k).connections.filter (· ≠ connection)
      else (m.live k).connections) → c ∈ (m.live k).connections := by
    intro k c hc
    split at hc
    · exact (List.mem_filter.mp hc).1
    · exact hc
  refine h.setAttached (fun k c hc => h.attached k c (hsub k c hc)) ?_
  intro c id
  by_cases hc : c = connection
  · subst hc
    rw [Function.update_self, hstate, List.mem_filter, h.agree]
    constructor
    · rintro ⟨⟨k, hget, hmem⟩, hstays⟩
      have hstays : ¬ leaves k := fun hk =>
        of_decide_eq_true hstays ((hleaves id k hget hmem).mp hk)
      exact ⟨k, hget, by rw [if_neg hstays]; exact hmem⟩
    · rintro ⟨k, hget, hmem⟩
      by_cases hk : leaves k
      · rw [if_pos hk] at hmem
        exact absurd rfl (of_decide_eq_true (List.mem_filter.mp hmem).2)
      · rw [if_neg hk] at hmem
        refine ⟨⟨k, hget, hmem⟩, decide_eq_true ?_⟩
        exact fun hid => hk ((hleaves id k hget hmem).mpr hid)
  · rw [Function.update_of_ne hc, h.agree]
    refine exists_congr fun k => and_congr_right fun _ => ?_
    split
    · simp [hc]
    · rfl

theorem Inv.detach (h : Inv m) (connection : Nat) (id : JsString) :
    Inv (m.detach connection id) := by
  unfold LiveSessionManager.detach
  split
  · rename_i hid
    obtain ⟨live, hget, hmem⟩ := (h.agree connection id).mp hid
    have hleft : Inv ((m.setConnection connection fun c =>
        { c with sessionIds := c.sessionIds.filter (· ≠ id) }).setLive live fun l =>
          { l with connections := l.connections.filter (· ≠ connection) }) := by
      rw [setLive_connections]
      refine h.leave (fun i => i = id) (fun k => k = live) ?_ ?_
      · intro i k hk _
        constructor
        · rintro rfl
          exact (h.entry i k hk).2.symm.trans (h.entry id k hget).2
        · rintro rfl
          exact Option.some.inj (hk.symm.trans hget)
      · refine List.filter_congr fun i _ => ?_
        simp
    have hget' : (m.setConnection connection fun c =>
        { c with sessionIds := c.sessionIds.filter (· ≠ id) }).liveSessions.get? id = some live :=
      hget
    simp only [hget']
    split
    · exact hleft.addPlainTask rfl (by simp)
    · exact hleft.setAgenda _
  · exact h

theorem Inv.disconnect (h : Inv m) (connection : Nat) (agenda : List Job) :
    Inv (m.disconnect connection agenda) := by
  unfold LiveSessionManager.disconnect
  split
  · exact h.setAgenda agenda
  · have hleft : Inv { m with
        connection := Function.update m.connection connection ⟨[], true, true⟩
        live := fun k => { m.live k with
          connections := if k ∈ (m.connection connection).sessionIds.filterMap m.liveSessions.get?
            then (m.live k).connections.filter (· ≠ connection) else (m.live k).connections } } :=
              by
      refine h.leave (fun _ => True)
        (fun k => k ∈ (m.connection connection).sessionIds.filterMap m.liveSessions.get?) ?_ ?_
      · intro id k hget hmem
        refine iff_of_true ?_ trivial
        exact List.mem_filterMap.mpr ⟨id, (h.agree connection id).mpr ⟨k, hget, hmem⟩, hget⟩
      · simp
    have hsame : (fun k => { m.live k with
          connections := if k ∈ (m.connection connection).sessionIds.filterMap m.liveSessions.get?
            then (m.live k).connections.filter (· ≠ connection) else (m.live k).connections })
        = fun k => if k ∈ (m.connection connection).sessionIds.filterMap m.liveSessions.get?
          then { m.live k with connections := (m.live k).connections.filter (· ≠ connection) }
          else m.live k := by
      funext k
      split <;> rfl
    rw [hsame] at hleft
    exact hleft.setAgenda _

theorem Inv.operation (h : Inv m) (connection : Nat) (id : JsString) :
    Inv (m.operation connection id) := by
  unfold LiveSessionManager.operation
  split
  · split
    · exact h
    · rename_i live hget
      split
      · exact h
      · rename_i hguard
        have hunset : (m.live live).disposing = .unset :=
          not_not.mp fun hne => hguard (Or.inr hne)
        have hcount : Inv (m.setLive live fun l =>
            { l with operationCount := l.operationCount + 1 }) := h.setLive rfl rfl rfl rfl
        have hunset' : ((m.setLive live fun l =>
            { l with operationCount := l.operationCount + 1 }).live live).disposing = .unset :=
          (setLive_field LiveSession.disposing rfl live).trans hunset
        have htask := hcount.addPlainTask (show held? _ (Task.operation live) = none from rfl)
          (by simp)
        exact htask.call live .operation (fun hop => by cases hop) (fun _ => hunset')
  · exact h

theorem Inv.terminate (h : Inv m) (live : Nat) : Inv (m.terminate live) := by
  unfold LiveSessionManager.terminate
  split
  · exact h
  · have hterminal :
      Inv (m.setLive live fun l => { l with terminal := true, subscribed := false }) :=
      h.setLive rfl rfl rfl rfl
    exact hterminal.addPlainTask rfl (by simp)

/-! ## Creation and disposal -/

/-- `create` has made the session of its id. -/
theorem Inv.created (h : Inv m) {creation : Nat} {id : JsString} (error : Bool)
    (hcreation : m.creation creation = .pending id) : Inv (m.created creation id error) := by
  obtain ⟨hlt, hopening, hnone⟩ := h.pending creation id hcreation
  have hold : ∀ k, k < m.nextLive → (m.created creation id error).live k = m.live k := fun k hk =>
    Function.update_of_ne (Nat.ne_of_lt hk) _ _
  have hnew : (m.created creation id error).live m.nextLive
      = ⟨id, [], true, 0, true, error, .unset, true⟩ := Function.update_self ..
  have hget : ∀ i, (m.created creation id error).liveSessions.get? i
      = if id = i then some m.nextLive else m.liveSessions.get? i := fun i => JsMap.get?_set ..
  have husable : ∀ k, m.Usable k → (m.created creation id error).Usable k := by
    intro k hk
    have hne : id ≠ (m.live k).id := by
      intro heq
      have hsome := hk.1
      rw [← heq, hnone] at hsome
      cases hsome
    rw [Usable, hold k (h.entry _ k hk.1).1, hget, if_neg hne]
    exact hk
  have hnewUsable : (m.created creation id error).Usable m.nextLive := by
    rw [Usable, hnew, hget, if_pos rfl]
    exact ⟨rfl, rfl⟩
  have hconnections : ∀ k c, c ∈ ((m.created creation id error).live k).connections →
      k ≠ m.nextLive ∧ c ∈ (m.live k).connections := by
    intro k c hc
    by_cases hk : k = m.nextLive
    · rw [hk, hnew] at hc
      cases hc
    · exact ⟨hk, by simpa [LiveSessionManager.created, hk] using hc⟩
  have hheld : ∀ task ∈ m.tasks, ∀ k, (m.created creation id error).held? task = some k →
      m.held? task = some k ∨ k = m.nextLive := by
    intro task _ k hk
    cases task with
    | awaitCreation c i made own =>
      by_cases heq : made = creation
      · subst heq
        rw [held?, LiveSessionManager.created] at hk
        simp only [Function.update_self] at hk
        exact Or.inr (Option.some.inj hk).symm
      · rw [held?, LiveSessionManager.created] at hk
        simp only [Function.update_of_ne heq] at hk
        exact Or.inl hk
    | _ => exact Or.inl hk
  constructor
  · intro i k hi
    rw [hget] at hi
    split at hi
    · rename_i heq
      obtain rfl := Option.some.inj hi
      rw [hnew]
      exact ⟨Nat.lt_succ_self _, heq⟩
    · have hentry := h.entry i k hi
      rw [hold k hentry.1]
      exact ⟨Nat.lt_succ_of_lt hentry.1, hentry.2⟩
  · intro k hk
    show k < m.nextLive + 1
    by_cases heq : k = m.nextLive
    · omega
    · refine Nat.lt_succ_of_lt (h.ready k ?_)
      simpa [LiveSessionManager.created, heq] using hk
  · intro k c hc
    exact husable k (h.attached k c (hconnections k c hc).2)
  · intro c i
    show i ∈ (m.connection c).sessionIds ↔ _
    rw [h.agree]
    constructor
    · rintro ⟨k, hi, hc⟩
      have hne : id ≠ i := by
        rintro rfl
        rw [hnone] at hi
        cases hi
      refine ⟨k, by rw [hget, if_neg hne]; exact hi, ?_⟩
      rw [hold k (h.entry i k hi).1]
      exact hc
    · rintro ⟨k, hi, hc⟩
      obtain ⟨hne, hc⟩ := hconnections k c hc
      rw [hget] at hi
      split at hi
      · exact absurd (Option.some.inj hi).symm hne
      · exact ⟨k, hi, hc⟩
  · intro task htask k hk
    rcases List.mem_append.mp htask with htask | htask
    · rcases hheld task htask k hk with hk | rfl
      · exact husable k (h.held task htask k hk)
      · exact hnewUsable
    · -- the task of an error that came at once holds nothing
      split at htask
      · rw [List.mem_singleton.mp htask] at hk
        cases hk
      · cases htask
  · intro c i k own htask
    rcases List.mem_append.mp htask with htask | htask
    · exact h.waiting c i k own htask
    · split at htask
      · cases List.mem_singleton.mp htask
      · cases htask
  · intro i k hk
    obtain ⟨c, hc⟩ := h.opening i k hk
    exact ⟨c, List.mem_append_left _ hc⟩
  · intro k i hk
    by_cases heq : k = creation
    · subst heq
      simp [LiveSessionManager.created] at hk
    · replace hk : m.creation k = .pending i := by
        simpa [LiveSessionManager.created, heq] using hk
      obtain ⟨hlt', hopening', hnone'⟩ := h.pending k i hk
      refine ⟨hlt', hopening', ?_⟩
      have hne : id ≠ i := by
        rintro rfl
        exact heq (Option.some.inj (hopening'.symm.trans hopening))
      rw [hget, if_neg hne]
      exact hnone'
  · intro k hk
    obtain ⟨hlt', hbegun⟩ := h.disposed k hk
    rw [hold k hlt']
    exact ⟨Nat.lt_succ_of_lt hlt', hbegun⟩
  · exact h.started

theorem Inv.failed (h : Inv m) {creation : Nat} :
    Inv { m with creation := Function.update m.creation creation .failed } := by
  have hheld : ∀ task k, held? { m with
      creation := Function.update m.creation creation .failed } task = some k →
        m.held? task = some k := by
    intro task k hk
    cases task with
    | awaitCreation c i made own =>
      by_cases heq : made = creation
      · subst heq
        simp [held?] at hk
      · simpa [held?, heq] using hk
    | _ => exact hk
  refine ⟨h.entry, h.ready, h.attached, h.agree, ?_, h.waiting, h.opening, ?_,
    h.disposed, h.started⟩
  · exact fun task htask k hk => h.held task htask k (hheld task k hk)
  · intro k i hk
    by_cases heq : k = creation
    · subst heq
      simp at hk
    · exact h.pending k i (by simpa [heq] using hk)

/-- A session that is being disposed of leaves the map. -/
theorem Inv.deleteEntry (h : Inv m) {id : JsString} {live : Nat}
    (hget : m.liveSessions.get? id = some live) (hbegun : (m.live live).disposing ≠ .unset) :
    Inv { m with liveSessions := m.liveSessions.delete id } := by
  have husable : ∀ k, m.Usable k →
      Usable { m with liveSessions := m.liveSessions.delete id } k := by
    intro k hk
    have hne : id ≠ (m.live k).id := by
      rintro rfl
      obtain rfl := Option.some.inj (hk.1.symm.trans hget)
      exact hbegun hk.2
    refine ⟨?_, hk.2⟩
    show (m.liveSessions.delete id).get? (m.live k).id = some k
    rw [JsMap.get?_delete, if_neg hne]
    exact hk.1
  constructor
  · intro i k hi
    exact h.entry i k (JsMap.get?_of_delete hi)
  · exact h.ready
  · exact fun k c hc => husable k (h.attached k c hc)
  · intro c i
    rw [h.agree]
    refine exists_congr fun k => ?_
    show _ ↔ (m.liveSessions.delete id).get? i = some k ∧ c ∈ (m.live k).connections
    rw [JsMap.get?_delete]
    split
    · rename_i heq
      subst heq
      constructor
      · rintro ⟨hi, hc⟩
        obtain rfl := Option.some.inj (hi.symm.trans hget)
        exact absurd (h.attached k c hc).2 hbegun
      · rintro ⟨hi, -⟩
        cases hi
    · rfl
  · exact fun task htask k hk => husable k (h.held task htask k hk)
  · exact h.waiting
  · exact h.opening
  · intro k i hk
    obtain ⟨hlt, hopening, hnone⟩ := h.pending k i hk
    refine ⟨hlt, hopening, ?_⟩
    show (m.liveSessions.delete id).get? i = none
    rw [JsMap.get?_delete]
    split
    · rfl
    · exact hnone
  · exact h.disposed
  · exact h.started

/-- `runtime.dispose()` has returned. -/
theorem Inv.finishDisposing (h : Inv m) {live : Nat}
    (hrunning : (m.live live).disposing = .running) :
    Inv (m.setLive live fun l => { l with disposing := .finished }) := by
  have hunused : ¬ m.Usable live := by
    rintro ⟨-, hunset⟩
    rw [hrunning] at hunset
    cases hunset
  have hnobody : (m.live live).connections = [] :=
    List.eq_nil_iff_forall_not_mem.mpr fun c hc => hunused (h.attached live c hc)
  refine h.setDisposing rfl rfl rfl (by simp) hnobody ?_
  intro task htask hheld
  exact hunused (h.held task htask live hheld)

theorem Inv.forgetOpening (h : Inv m) (id : JsString) {creation : Nat}
    (hdone : ∀ i, m.creation creation ≠ .pending i) : Inv (m.forgetOpening id creation) := by
  unfold LiveSessionManager.forgetOpening
  split
  · rename_i hopening
    refine ⟨h.entry, h.ready, h.attached, h.agree, h.held, h.waiting, ?_, ?_, h.disposed, h.started⟩
    · intro i k hk
      exact h.opening i k (JsMap.get?_of_delete hk)
    · intro k i hk
      obtain ⟨hlt, hopening', hnone⟩ := h.pending k i hk
      refine ⟨hlt, ?_, hnone⟩
      show (m.openingSessions.delete id).get? i = some k
      have hne : id ≠ i := by
        rintro rfl
        obtain rfl := Option.some.inj (hopening'.symm.trans hopening)
        exact hdone _ hk
      rw [JsMap.get?_delete, if_neg hne]
      exact hopening'
  · exact h

theorem forgetOpening_ne (m : LiveSessionManager) (id : JsString) (creation : Nat) :
    (m.forgetOpening id creation).openingSessions.get? id ≠ some creation := by
  unfold forgetOpening
  split
  · simp
  · assumption

theorem forgetOpening_same (m : LiveSessionManager) (id : JsString) (creation : Nat) :
    (m.forgetOpening id creation).creation = m.creation ∧
      (∀ live, m.Usable live → (m.forgetOpening id creation).Usable live) := by
  unfold forgetOpening
  split
  · exact ⟨rfl, fun _ husable => husable⟩
  · exact ⟨rfl, fun _ husable => husable⟩

/-! ## Steps -/

theorem replaceTask_nil (m : LiveSessionManager) (task : Task) :
    m.replaceTask task [] = { m with tasks := m.tasks.erase task } := by
  rw [replaceTask, List.append_nil]

/-- The creation that a call awaits is done. -/
theorem Inv.resumeCreation (h : Inv m) {connection creation : Nat} {id : JsString} {own : Bool}
    (htask : .awaitCreation connection id creation own ∈ m.tasks)
    (hs : m.resume (.awaitCreation connection id creation own) = some m') : Inv m' := by
  have hother : (∀ i, m.creation creation ≠ .pending i) →
      Inv { (if own then m.forgetOpening id creation else m) with
        tasks := (if own then m.forgetOpening id creation else m).tasks.erase
          (.awaitCreation connection id creation own) } := by
    intro hdone
    cases own with
    | true =>
      refine (h.forgetOpening id hdone).removeTask ?_
      intro c i k heq
      cases heq
      exact forgetOpening_ne m _ _
    | false => exact h.removeTask fun c i k heq => by cases heq
  have hsame : ∀ live, m.Usable live →
      Usable (if own then m.forgetOpening id creation else m) live := by
    intro live husable
    cases own with
    | true => exact (forgetOpening_same m id creation).2 live husable
    | false => exact husable
  rw [LiveSessionManager.resume] at hs
  cases hcreation : m.creation creation with
  | unused =>
    rw [hcreation] at hs
    cases hs
  | pending i =>
    rw [hcreation] at hs
    cases hs
  | failed =>
    rw [hcreation] at hs
    obtain rfl := Option.some.inj hs
    rw [replaceTask_nil]
    exact hother (by simp [hcreation])
  | made live =>
    rw [hcreation] at hs
    obtain rfl := Option.some.inj hs
    have husable := h.held _ htask live (by simp [held?, hcreation])
    refine (hother (by simp [hcreation])).addTask ?_ (by simp)
    intro k hk
    obtain rfl := Option.some.inj hk
    exact hsame live husable

/-- An await returns. -/
theorem Inv.resume (h : Inv m) {task : Task} (htask : task ∈ m.tasks)
    (hs : m.resume task = some m') : Inv m' := by
  cases task with
  | awaitCreation connection id creation own => exact h.resumeCreation htask hs
  | awaitDisposal connection id live =>
    rw [LiveSessionManager.resume] at hs
    split at hs
    · obtain rfl := Option.some.inj hs
      rw [replaceTask_nil]
      exact (h.removePlainTask _ (by simp)).acquire connection id
    · cases hs
  | attach connection live =>
    obtain rfl := Option.some.inj hs
    have husable := h.held _ htask live rfl
    rw [replaceTask_nil]
    exact (h.removePlainTask _ (by simp)).attach husable
  | operation live =>
    obtain rfl := Option.some.inj hs
    rw [replaceTask_nil]
    have hremoved := h.removePlainTask (.operation live) (by simp)
    have hended : Inv ({ m with tasks := m.tasks.erase (.operation live) }.setLive live fun l =>
        { l with operationCount := l.operationCount - 1 }) := hremoved.setLive rfl rfl rfl rfl
    exact hended.setAgenda _
  | detach live =>
    obtain rfl := Option.some.inj hs
    rw [replaceTask_nil]
    exact (h.removePlainTask _ (by simp)).setAgenda _
  | terminate live connections =>
    obtain rfl := Option.some.inj hs
    have hremoved := h.removePlainTask (.terminate live connections) (by simp)
    have hadded := hremoved.addPlainTask (show held? _ (Task.terminated live) = none from rfl)
      (by simp)
    exact hadded.setAgenda _
  | terminated live =>
    obtain rfl := Option.some.inj hs
    rw [replaceTask_nil]
    exact (h.removePlainTask _ (by simp)).setAgenda _

theorem Inv.reject (h : Inv m) {task : Task} (hs : m.reject task = some m') : Inv m' := by
  cases task with
  | awaitDisposal connection id live =>
    rw [LiveSessionManager.reject] at hs
    split at hs
    · obtain rfl := Option.some.inj hs
      rw [replaceTask_nil]
      exact h.removePlainTask _ (by simp)
    · cases hs
  | detach live =>
    obtain rfl := Option.some.inj hs
    rw [replaceTask_nil]
    exact h.removePlainTask _ (by simp)
  | awaitCreation | attach | operation | terminate | terminated => cases hs

/-- A step with nothing on the agenda. -/
theorem Inv.turn (h : Inv m) {a : Action} (hs : m.turn a = some m') : Inv m' := by
  cases a with
  | create connection id | attach connection id =>
    obtain rfl := Option.some.inj hs
    exact h.acquire connection id
  | detach connection id =>
    obtain rfl := Option.some.inj hs
    exact h.detach connection id
  | operation connection id =>
    obtain rfl := Option.some.inj hs
    exact h.operation connection id
  | close connection =>
    obtain rfl := Option.some.inj hs
    refine ⟨h.entry, h.ready, h.attached, ?_, h.held, h.waiting, h.opening, h.pending, h.disposed,
      h.started⟩
    intro c id
    refine Iff.trans ?_ (h.agree c id)
    by_cases hc : c = connection
    · subst hc
      simp [setConnection]
    · simp [setConnection, hc]
  | disconnect connection =>
    obtain rfl := Option.some.inj hs
    exact h.disconnect connection []
  | phase live idle =>
    obtain rfl := Option.some.inj hs
    exact h.setLive rfl rfl rfl rfl
  | event live =>
    rw [LiveSessionManager.turn] at hs
    split at hs
    · obtain rfl := Option.some.inj hs
      exact h.setAgenda _
    · cases hs
  | error live =>
    rw [LiveSessionManager.turn] at hs
    split at hs
    · obtain rfl := Option.some.inj hs
      exact h.terminate live
    · cases hs
  | created creation error =>
    rw [LiveSessionManager.turn] at hs
    split at hs
    · obtain rfl := Option.some.inj hs
      exact h.created error (by assumption)
    · cases hs
  | failed creation =>
    rw [LiveSessionManager.turn] at hs
    split at hs
    · obtain rfl := Option.some.inj hs
      exact h.failed
    · cases hs
  | disposed live =>
    rw [LiveSessionManager.turn] at hs
    split at hs
    · rename_i hrunning
      have hended := h.finishDisposing hrunning
      simp only at hs
      split at hs
      · rename_i hget
        obtain rfl := Option.some.inj hs
        have hbegun :
          ((m.setLive live fun l => { l with disposing := .finished }).live live).disposing
            ≠ .unset := by simp [LiveSessionManager.setLive]
        exact hended.deleteEntry hget hbegun
      · obtain rfl := Option.some.inj hs
        exact hended
    · cases hs
  | resume task =>
    rw [LiveSessionManager.turn] at hs
    split at hs
    · exact h.resume (by assumption) hs
    · cases hs
  | reject task =>
    rw [LiveSessionManager.turn] at hs
    split at hs
    · exact h.reject hs
    · cases hs
  | next => cases hs

theorem Inv.step (h : Inv m) {a : Action} (hsafe : m.Orderly a) (hs : m.step a = some m') :
    Inv m' := by
  unfold LiveSessionManager.step at hs
  cases hagenda : m.agenda with
  | nil =>
    rw [hagenda] at hs
    exact h.turn hs
  | cons job agenda =>
    simp only [hagenda] at hs
    split at hs
    · obtain rfl := Option.some.inj hs
      exact h.disconnect _ _
    · rename_i live
      obtain rfl := Option.some.inj hs
      refine (h.setAgenda agenda).maybeDispose ?_
      intro hmay task htask
      refine hsafe live ?_ task htask
      have hmay' : m.mayDispose live = true := hmay
      simp [disposes?, hagenda, hmay']
    · cases hs

theorem Reachable.inv (h : Reachable Orderly m) : Inv m := by
  induction h with
  | start => exact inv_start
  | step _ hsafe hs ih => exact ih.step hsafe hs

/-- **Sessions in use.** In every run whose steps dispose of no session that a command has
acquired and not yet attached to, no session in use is disposed of. -/
theorem sessions_in_use (h : Reachable Orderly m) : InUse m :=
  ⟨h.inv.attached, h.inv.agree, fun _ live hmem => h.inv.held _ hmem live rfl, h.inv.started⟩

/-- The state that steps lead to, each of which `safe` allows. -/
def run (safe : LiveSessionManager → Action → Prop) [∀ m a, Decidable (safe m a)]
    (m : LiveSessionManager) (as : List Action) : Option LiveSessionManager :=
  as.foldlM (fun m a => if safe m a then m.step a else none) m

theorem Reachable.run {safe : LiveSessionManager → Action → Prop} [∀ m a, Decidable (safe m a)]
    (as : List Action) {m : LiveSessionManager} (h : Reachable safe m)
    (hrun : m.run safe as = some m') :
    Reachable safe m' :=
  Runs.run_induction_if (fun _ _ _ h hsafe hs => .step h hsafe hs) as h hrun

/-- A session is attached to and used, attached to again, and kept when the first connection has
gone. -/
def usedRun (id : JsString) : List Action :=
  [.attach 0 id, .created 0 false, .resume (.awaitCreation 0 id 0 true), .resume (.attach 0 0),
    .operation 0 id, .event 0, .next, .resume (.operation 0), .next, .attach 1 id,
    .resume (.attach 1 0), .disconnect 0, .next]

theorem sessions_in_use_used : ∃ m, Reachable Orderly m ∧ InUse m ∧
    1 ∈ (m.live 0).connections ∧ m.Usable 0 := by
  have h : (start.run Orderly (usedRun (js "s"))).any fun m => 1 ∈ (m.live 0).connections := by
    decide
  obtain ⟨m, hrun, hmem⟩ := (Option.any_eq_true _ _).mp h
  have hreachable := Reachable.run _ .start hrun
  have hinUse := sessions_in_use hreachable
  exact ⟨m, hreachable, hinUse, of_decide_eq_true hmem,
    hinUse.attached 0 1 (of_decide_eq_true hmem)⟩

/-- The runtime reports something between the creation of its session and `attach`. -/
def eventRun (id : JsString) : List Action :=
  [.attach 0 id, .created 0 false, .resume (.awaitCreation 0 id 0 true), .event 0, .next,
    .resume (.attach 0 0)]

/-- A connection is attached to a session that is being disposed of. -/
theorem not_sessions_in_use : ¬ ∀ m, Reachable (fun _ _ => True) m → ∀ live,
    ∀ c ∈ (m.live live).connections, (m.live live).terminal = true ∨ m.Usable live := by
  intro hall
  have h : (start.run (fun _ _ => True) (eventRun (js "s"))).any fun m =>
      0 ∈ (m.live 0).connections ∧ (m.live 0).terminal = false ∧
        (m.live 0).disposing = .running := by
    decide
  obtain ⟨m, hrun, h⟩ := (Option.any_eq_true _ _).mp h
  obtain ⟨hmem, hterminal, hrunning⟩ := of_decide_eq_true h
  rcases hall m (Reachable.run _ .start hrun) 0 0 hmem with hyes | husable
  · rw [hterminal] at hyes
    cases hyes
  · rw [husable.2] at hrunning
    cases hrunning

end LiveSessionManager

end PiMono.Server.Sessions
