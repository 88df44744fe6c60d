import PiMono.Lib.Runs
import PiMono.Server.Snapshots

/-!
# Connections get the current snapshot

A list that is being made, or was sent, is the list of the sessions as they are unless a
broadcast is still to come (`UpToDate`); the revision says the same as long as no broadcast
begins without connections that are ready. `Inv` keeps both together: the last snapshot of
a connection has the current revision unless the broadcast under way has still to reach it.

Three steps can break this (`Orderly`): a broadcast that is skipped because nobody is ready,
while a handshake has captured a list that changed since, a broadcast that overtakes the second
snapshot of a handshake, and a broadcast that fails behind the last request. `converges` is
about the runs without them.
-/

namespace PiMono.Server

namespace PiServer

/-- What has been read of a list is as the sessions are now. -/
def Current (s : PiServer) : Listing → Prop
  | .stored => True
  | .read stored => stored = s.stored
  | .live stored slots =>
    stored = s.stored ∧ List.Forall₂ (fun slot entry => slot.1 = entry.1 ∧
      (slot.2 = none ∨ slot.2 = some entry.2)) slots s.live.entries
  | .listed sessions => sessions = s.sessions

instance (s : PiServer) : ∀ listing, Decidable (s.Current listing)
  | .stored => inferInstanceAs (Decidable True)
  | .read _ => inferInstanceAs (Decidable (_ = _))
  | .live _ _ => inferInstanceAs (Decidable (_ ∧ _))
  | .listed _ => inferInstanceAs (Decidable (_ = _))

/-- A broadcast is still to come. -/
def Pending (s : PiServer) : Prop := s.unannounced = true ∨ 0 < s.queued

instance (s : PiServer) : Decidable s.Pending := inferInstanceAs (Decidable (_ ∨ _))

def UpToDate (s : PiServer) (listing : Listing) : Prop := s.Current listing ∨ s.Pending

/-- The broadcast under way has still to send to a connection. -/
def Awaits (s : PiServer) (id : Nat) : Prop :=
  ∃ b, s.broadcast = some b ∧ id ∈ b.readyConnections

/-- A handshake under way with the present revision has captured the sessions as they are. -/
def CapturedCurrent (s : PiServer) (sent : List ServerSnapshot) : Stage → Prop
  | .handshaking get => get.revision = s.revision → s.Current get.listing
  | .greeting revision =>
    revision = s.revision → ∀ snapshot ∈ sent, snapshot.sessions = s.sessions
  | _ => True

instance (s : PiServer) (sent : List ServerSnapshot) :
    ∀ stage, Decidable (s.CapturedCurrent sent stage)
  | .awaitingHello | .ready _ => inferInstanceAs (Decidable True)
  | .handshaking get => inferInstanceAs (Decidable (_ → s.Current get.listing))
  | .greeting _ => inferInstanceAs (Decidable (_ → ∀ _ ∈ _, _))

/-- A step that neither skips a broadcast while a handshake holds an old list, nor sends a
broadcast to a connection that is getting a snapshot of its own, nor loses a broadcast that a
connection waits for when no other is to come. -/
def Orderly (s : PiServer) : Action → Prop
  | .perform => (∀ c ∈ s.connections, c.stage.isReady = false) →
      ∀ c ∈ s.connections, s.CapturedCurrent c.sent c.stage
  | .send => ∀ c ∈ s.connections,
      s.broadcast.bind (·.readyConnections.head?) = some c.id → c.stage.catchesUp = false
  | .fail => s.Pending ∨
      ∀ c ∈ s.connections, ∀ b ∈ s.broadcast, c.id ∉ b.readyConnections
  | _ => True

instance (s : PiServer) : ∀ a, Decidable (s.Orderly a)
  | .perform => inferInstanceAs (Decidable (_ → _))
  | .send => inferInstanceAs (Decidable (∀ _ ∈ _, _))
  | .fail => inferInstanceAs (Decidable (_ ∨ ∀ _ ∈ _, _))
  | .change _ _ | .broadcast | .accept | .hello _ | .list _ | .snapshot _ _ _ | .models _
  | .greeted _ | .disconnect _ => inferInstanceAs (Decidable True)

/-- No step is pending, and sessions have not changed without a broadcast. -/
def Quiescent (s : PiServer) : Prop :=
  ¬ s.Pending ∧ s.broadcast = none ∧
    ∀ c ∈ s.connections, c.stage = .awaitingHello ∨ c.stage = .ready none

instance (s : PiServer) : Decidable s.Quiescent := inferInstanceAs (Decidable (¬ _ ∧ _ ∧ _))

/-- The revisions of snapshots increase. -/
def Increasing (sent : List ServerSnapshot) : Prop := (sent.map (·.revision)).Pairwise (· < ·)

/-- A list of some revision is the current one, or a broadcast under way or to come is newer. -/
def Reached (s : PiServer) (id revision : Nat) (listing : Listing) : Prop :=
  (s.Awaits id → revision < s.revision) ∧
    (¬ s.Awaits id → revision ≤ s.revision ∧
      (revision = s.revision ∧ s.Current listing ∨ s.Pending))

/-- What has been sent to a connection, and what it is about to be sent. -/
def ConnectionInv (s : PiServer) (c : ConnectionState) : Prop :=
  match c.stage with
  | .awaitingHello => c.sent = [] ∧ ¬ s.Awaits c.id
  | .handshaking get => c.sent = [] ∧ ¬ s.Awaits c.id ∧ get.revision ≤ s.revision ∧
      (get.revision = s.revision → s.UpToDate get.listing)
  | .greeting revision => ∃ sessions, c.sent = [⟨revision, sessions⟩] ∧ ¬ s.Awaits c.id ∧
      revision ≤ s.revision ∧ (revision = s.revision → s.UpToDate (.listed sessions))
  | .ready (some get) => ∃ before last, c.sent = before ++ [last] ∧ Increasing c.sent ∧
      last.revision < get.revision ∧ s.Reached c.id get.revision get.listing
  | .ready none => ∃ before last, c.sent = before ++ [last] ∧ Increasing c.sent ∧
      s.Reached c.id last.revision (.listed last.sessions)

/-- The broadcast under way has the newest revision. -/
structure BroadcastInv (s : PiServer) (b : Broadcast) : Prop where
  revision : b.revision = s.revision
  listing : ∀ listing, b.phase = .listing listing → s.UpToDate listing
  nodup : b.readyConnections.Nodup
  known : ∀ id ∈ b.readyConnections, id < s.nextId

structure Inv (s : PiServer) : Prop where
  nodup : (s.connections.map (·.id)).Nodup
  known : ∀ c ∈ s.connections, c.id < s.nextId
  connections : ∀ c ∈ s.connections, s.ConnectionInv c
  broadcast : ∀ b, s.broadcast = some b → s.BroadcastInv b

variable {s s' : PiServer}

/-! ## Lists -/

/-- What is read next of a current list is current. -/
theorem current_list {listing listing' : Listing} (h : s.Current listing)
    (hnext : s.list listing = some listing') : s.Current listing' := by
  cases listing with
  | stored =>
    obtain rfl := Option.some.inj hnext
    rfl
  | read stored =>
    obtain rfl := Option.some.inj hnext
    refine ⟨h, ?_⟩
    induction s.live.entries with
    | nil => exact .nil
    | cons entry entries ih => exact .cons ⟨rfl, Or.inl rfl⟩ ih
  | live stored slots =>
    obtain ⟨rfl, hslots⟩ := h
    rw [list] at hnext
    split at hnext
    · rename_i hall
      obtain rfl := Option.some.inj hnext
      show mergeMetadata s.stored _ = mergeMetadata s.stored s.live.entries
      congr 1
      -- every snapshot has come
      have hread : ∀ slots entries, List.Forall₂ (fun (slot : JsString × Option SessionSnapshot)
          (entry : JsString × SessionSnapshot) => slot.1 = entry.1 ∧
            (slot.2 = none ∨ slot.2 = some entry.2)) slots entries →
          slots.all (·.2.isSome) = true →
          (slots.filterMap fun slot => slot.2.map (slot.1, ·)) = entries := by
        intro slots entries hboth
        induction hboth with
        | nil => intro _; rfl
        | @cons slot entry slots entries hslot _ ih =>
          intro hall
          rw [List.all_cons, Bool.and_eq_true] at hall
          rcases hslot.2 with hnone | hsome
          · rw [hnone] at hall
            cases hall.1
          · rw [List.filterMap_cons, hsome, Option.map_some, ih hall.2, hslot.1]
      exact hread slots _ hslots hall
    · cases hnext
  | listed sessions => cases hnext

theorem current_answer {listing listing' : Listing} {sessionId : JsString}
    {answer : SessionSnapshot} (h : s.Current listing)
    (hnext : s.answer sessionId answer listing = some listing') : s.Current listing' := by
  cases listing with
  | stored => cases hnext
  | read stored => cases hnext
  | listed sessions => cases hnext
  | live stored slots =>
    obtain ⟨rfl, hslots⟩ := h
    obtain rfl := Option.some.inj hnext
    refine ⟨rfl, ?_⟩
    have hlive : ∀ entry ∈ s.live.entries, s.live.get? entry.1 = some entry.2 := fun entry hmem =>
      fieldValue?_of_mem s.live.nodup hmem
    clear hnext
    generalize s.live.entries = entries at hslots hlive
    induction hslots with
    | nil => exact .nil
    | @cons slot entry slots entries hslot _ ih =>
      refine .cons ?_ (ih fun e hmem => hlive e (List.mem_cons_of_mem _ hmem))
      dsimp only
      split
      · rename_i hfill
        have hget := hlive entry List.mem_cons_self
        rw [← hslot.1, hfill.1] at hget
        rw [hget]
        exact ⟨hfill.1.symm.trans hslot.1, Or.inr rfl⟩
      · exact hslot

/-! ## Steps -/

/-- Of two connections of a server none has the id of the other. -/
theorem Inv.eq_of_id (h : Inv s) {c d : ConnectionState} (hc : c ∈ s.connections)
    (hd : d ∈ s.connections) (hid : c.id = d.id) : c = d :=
  List.inj_on_of_nodup_map h.nodup hc hd hid

theorem stage?_eq_some {id : Nat} {stage : Stage} (h : s.stage? id = some stage) :
    ∃ c ∈ s.connections, c.id = id ∧ c.stage = stage := by
  obtain ⟨c, hfind, rfl⟩ := Option.map_eq_some_iff.mp h
  exact ⟨c, List.mem_of_find?_eq_some hfind, by simpa using List.find?_some hfind, rfl⟩

/-- What an invariant of a connection needs of the server. -/
theorem ConnectionInv.congr {c : ConnectionState} (h : s.ConnectionInv c)
    (hrevision : s'.revision = s.revision) (hawaits : s'.Awaits c.id ↔ s.Awaits c.id)
    (hpending : s.Pending → s'.Pending)
    (hlists : ∀ listing, s.UpToDate listing → s'.UpToDate listing) : s'.ConnectionInv c := by
  have hnewest : ∀ {revision : Nat} {listing : Listing},
      revision = s.revision ∧ s.Current listing ∨ s.Pending →
      revision = s.revision ∧ s'.Current listing ∨ s'.Pending := by
    rintro revision listing (⟨heq, hcurrent⟩ | hpend)
    · exact (hlists listing (Or.inl hcurrent)).imp_left fun hcurrent => ⟨heq, hcurrent⟩
    · exact Or.inr (hpending hpend)
  unfold ConnectionInv Reached at *
  rw [hrevision, hawaits]
  cases hstage : c.stage with
  | awaitingHello =>
    rw [hstage] at h
    exact h
  | handshaking get =>
    rw [hstage] at h
    obtain ⟨hsent, hno, hle, hlist⟩ := h
    exact ⟨hsent, hno, hle, fun heq => hlists _ (hlist heq)⟩
  | greeting revision =>
    rw [hstage] at h
    obtain ⟨sessions, hsent, hno, hle, hlist⟩ := h
    exact ⟨sessions, hsent, hno, hle, fun heq => hlists _ (hlist heq)⟩
  | ready catchUp =>
    rw [hstage] at h
    cases catchUp with
    | none =>
      obtain ⟨before, last, hsent, hinc, hold, hnew⟩ := h
      exact ⟨before, last, hsent, hinc, hold, fun hno => (hnew hno).imp_right hnewest⟩
    | some get =>
      obtain ⟨before, last, hsent, hinc, hlt, hold, hnew⟩ := h
      exact ⟨before, last, hsent, hinc, hlt, hold, fun hno => (hnew hno).imp_right hnewest⟩

theorem BroadcastInv.congr {b : Broadcast} (h : s.BroadcastInv b)
    (hrevision : s'.revision = s.revision) (hnextId : s.nextId ≤ s'.nextId)
    (hlists : ∀ listing, s.UpToDate listing → s'.UpToDate listing) : s'.BroadcastInv b where
  revision := h.revision.trans hrevision.symm
  listing := fun listing hphase => hlists listing (h.listing listing hphase)
  nodup := h.nodup
  known := fun id hid => Nat.lt_of_lt_of_le (h.known id hid) hnextId

/-- Connections, revision and broadcast stay; lists may become old when a broadcast is to
come. -/
theorem Inv.congr (h : Inv s) (hconnections : s'.connections = s.connections)
    (hrevision : s'.revision = s.revision) (hbroadcast : s'.broadcast = s.broadcast)
    (hnextId : s'.nextId = s.nextId) (hpending : s.Pending → s'.Pending)
    (hlists : ∀ listing, s.UpToDate listing → s'.UpToDate listing) : Inv s' where
  nodup := by
    rw [hconnections]
    exact h.nodup
  known := by
    rw [hconnections, hnextId]
    exact h.known
  connections := by
    rw [hconnections]
    intro c hc
    refine (h.connections c hc).congr hrevision ?_ hpending hlists
    rw [Awaits, hbroadcast, ← Awaits]
  broadcast := by
    rw [hbroadcast]
    intro b hb
    exact (h.broadcast b hb).congr hrevision (Nat.le_of_eq hnextId.symm) hlists

/-- One connection goes on. -/
theorem Inv.update (h : Inv s) {c : ConnectionState} (hc : c ∈ s.connections) {stage : Stage}
    {sent : List ServerSnapshot}
    (hnew : s.ConnectionInv { c with stage := stage, sent := c.sent ++ sent }) :
    Inv (s.update c.id stage sent) := by
  have hids : ∀ d : ConnectionState, (if d.id = c.id then
      { d with stage := stage, sent := d.sent ++ sent } else d).id = d.id := by
    intro d
    split <;> rfl
  constructor
  · have hmap : (s.update c.id stage sent).connections.map (·.id) = s.connections.map (·.id) := by
      rw [PiServer.update, List.map_map]
      exact List.map_congr_left fun d _ => hids d
    rw [hmap]
    exact h.nodup
  · intro d hd
    obtain ⟨e, he, rfl⟩ := List.mem_map.mp hd
    rw [hids e]
    exact h.known e he
  · intro d hd
    obtain ⟨e, he, rfl⟩ := List.mem_map.mp hd
    refine ConnectionInv.congr (s := s) ?_ rfl Iff.rfl id fun _ => id
    split
    · rename_i heq
      rw [h.eq_of_id he hc heq]
      exact hnew
    · exact h.connections e he
  · intro b hb
    exact (h.broadcast b hb).congr rfl (Nat.le_refl _) fun _ => id

/-- A list is continued. -/
theorem Inv.continueList (h : Inv s) {next : Listing → Option Listing} {reader : Reader}
    (hnext : ∀ listing listing', s.Current listing → next listing = some listing' →
      s.Current listing')
    (hs : s.continueList next reader = some s') : Inv s' := by
  have hlists : ∀ listing listing', next listing = some listing' → s.UpToDate listing →
      s.UpToDate listing' := fun listing listing' heq hup =>
    hup.imp_left fun hcurrent => hnext listing listing' hcurrent heq
  cases reader with
  | broadcast =>
    rw [PiServer.continueList] at hs
    split at hs
    · rename_i revision listing readyConnections hb
      obtain ⟨listing', hlisting, rfl⟩ := Option.map_eq_some_iff.mp hs
      have hbroadcast := h.broadcast _ hb
      constructor
      · exact h.nodup
      · exact h.known
      · intro c hc
        refine (h.connections c hc).congr rfl ?_ id fun _ => id
        simp [Awaits, hb]
      · intro b hb'
        obtain rfl := Option.some.inj hb'
        refine ⟨hbroadcast.revision, ?_, hbroadcast.nodup, hbroadcast.known⟩
        intro l hl
        obtain rfl := Phase.listing.inj hl
        exact hlists _ _ hlisting (hbroadcast.listing _ rfl)
    · cases hs
  | connection id =>
    rw [PiServer.continueList] at hs
    split at hs
    · rename_i get hstage
      obtain ⟨listing', hlisting, rfl⟩ := Option.map_eq_some_iff.mp hs
      obtain ⟨c, hc, rfl, hstage'⟩ := stage?_eq_some hstage
      have hinv := h.connections c hc
      rw [ConnectionInv, hstage'] at hinv
      obtain ⟨hsent, hno, hle, hlist⟩ := hinv
      refine h.update hc ⟨?_, hno, hle, fun heq => hlists _ _ hlisting (hlist heq)⟩
      rw [hsent, List.append_nil]
    · rename_i get hstage
      obtain ⟨listing', hlisting, rfl⟩ := Option.map_eq_some_iff.mp hs
      obtain ⟨c, hc, rfl, hstage'⟩ := stage?_eq_some hstage
      have hinv := h.connections c hc
      rw [ConnectionInv, hstage'] at hinv
      obtain ⟨before, last, hsent, hinc, hlt, hold, hnew⟩ := hinv
      have hsame : c.sent ++ [] = c.sent := List.append_nil _
      refine h.update hc ⟨before, last, hsame.trans hsent, ?_, hlt, hold, ?_⟩
      · show Increasing (c.sent ++ [])
        rw [hsame]
        exact hinc
      · exact fun hno => (hnew hno).imp_right fun hnewest =>
          hnewest.imp_left fun hsame => ⟨hsame.1, hnext _ _ hsame.2 hlisting⟩
    · cases hs

theorem Inv.change (h : Inv s) {stored : List SessionMetadata}
    {live : JsMap JsString SessionSnapshot} :
    Inv { s with stored := stored, live := live, unannounced := true } :=
  h.congr rfl rfl rfl rfl (fun _ => Or.inl rfl) fun _ _ => Or.inr (Or.inl rfl)

theorem Inv.request (h : Inv s) :
    Inv { s with queued := s.queued + 1, unannounced := false } :=
  h.congr rfl rfl rfl rfl (fun _ => Or.inr (Nat.succ_pos _))
    fun _ _ => Or.inr (Or.inr (Nat.succ_pos _))

theorem Inv.accept (h : Inv s) :
    Inv { s with
      connections := s.connections ++ [⟨s.nextId, .awaitingHello, []⟩]
      nextId := s.nextId + 1 } where
  nodup := by
    rw [List.map_append, List.nodup_append]
    refine ⟨h.nodup, List.nodup_singleton _, ?_⟩
    rintro id hid _ hnew rfl
    obtain ⟨c, hc, rfl⟩ := List.mem_map.mp hid
    have hlt := h.known c hc
    rw [List.map_singleton, List.mem_singleton] at hnew
    exact absurd hnew (Nat.ne_of_lt hlt)
  known := by
    intro c hc
    rcases List.mem_append.mp hc with hc | hc
    · exact Nat.lt_succ_of_lt (h.known c hc)
    · rw [List.mem_singleton.mp hc]
      exact Nat.lt_succ_self _
  connections := by
    intro c hc
    rcases List.mem_append.mp hc with hc | hc
    · exact (h.connections c hc).congr rfl Iff.rfl id fun _ => id
    · obtain rfl := List.mem_singleton.mp hc
      -- no broadcast knows the new connection
      refine ⟨rfl, ?_⟩
      rintro ⟨b, hb, hid⟩
      exact absurd ((h.broadcast b hb).known _ hid) (Nat.lt_irrefl _)
  broadcast := fun b hb => (h.broadcast b hb).congr rfl (Nat.le_succ _) fun _ => id

theorem Inv.hello (h : Inv s) {id : Nat} (hstage : s.stage? id = some .awaitingHello) :
    Inv (s.update id (.handshaking ⟨s.revision, .stored⟩) []) := by
  obtain ⟨c, hc, rfl, hstage'⟩ := stage?_eq_some hstage
  have hinv := h.connections c hc
  rw [ConnectionInv, hstage'] at hinv
  refine h.update hc ⟨?_, hinv.2, Nat.le_refl _, fun _ => Or.inl trivial⟩
  rw [hinv.1, List.append_nil]

/-- A snapshot of a newer revision is sent behind the others. -/
theorem Increasing.concat {before : List ServerSnapshot} {last snapshot : ServerSnapshot}
    (h : Increasing (before ++ [last])) (hlt : last.revision < snapshot.revision) :
    Increasing (before ++ [last] ++ [snapshot]) := by
  unfold Increasing at *
  rw [List.map_append, List.pairwise_append]
  refine ⟨h, List.pairwise_singleton _ _, ?_⟩
  intro revision hmem newest hnewest
  rw [List.map_singleton, List.mem_singleton] at hnewest
  subst hnewest
  rw [List.map_append, List.pairwise_append] at h
  rw [List.map_append, List.mem_append] at hmem
  rcases hmem with hmem | hmem
  · exact Nat.lt_trans (h.2.2 revision hmem _ (List.mem_singleton_self _)) hlt
  · rw [List.map_singleton, List.mem_singleton] at hmem
    rw [hmem]
    exact hlt

/-- `finishHandshake` sends the hello. -/
theorem Inv.sendHello (h : Inv s) {id revision : Nat} {sessions : List SessionMetadata}
    (hstage : s.stage? id = some (.handshaking ⟨revision, .listed sessions⟩)) :
    Inv (s.update id (.greeting revision) [⟨revision, sessions⟩]) := by
  obtain ⟨c, hc, rfl, hstage'⟩ := stage?_eq_some hstage
  have hinv := h.connections c hc
  rw [ConnectionInv, hstage'] at hinv
  obtain ⟨hsent, hno, hle, hlist⟩ := hinv
  refine h.update hc ⟨sessions, ?_, hno, hle, hlist⟩
  rw [hsent, List.nil_append]

/-- `finishHandshake` sends its second snapshot. -/
theorem Inv.sendCatchUp (h : Inv s) {id revision : Nat} {sessions : List SessionMetadata}
    (hstage : s.stage? id = some (.ready (some ⟨revision, .listed sessions⟩))) :
    Inv (s.update id (.ready none) [⟨revision, sessions⟩]) := by
  obtain ⟨c, hc, rfl, hstage'⟩ := stage?_eq_some hstage
  have hinv := h.connections c hc
  rw [ConnectionInv, hstage'] at hinv
  obtain ⟨before, last, hsent, hinc, hlt, hreached⟩ := hinv
  refine h.update hc ⟨c.sent, ⟨revision, sessions⟩, rfl, ?_, hreached⟩
  show Increasing (c.sent ++ _)
  rw [hsent] at hinc ⊢
  exact hinc.concat hlt

/-- The hello has been sent, and the connection is ready. -/
theorem Inv.greeted (h : Inv s) {id revision : Nat}
    (hstage : s.stage? id = some (.greeting revision)) :
    Inv (s.update id (.ready (if revision ≠ s.revision then some ⟨s.revision, .stored⟩ else none))
      []) := by
  obtain ⟨c, hc, rfl, hstage'⟩ := stage?_eq_some hstage
  have hinv := h.connections c hc
  rw [ConnectionInv, hstage'] at hinv
  obtain ⟨sessions, hsent, hno, hle, hlist⟩ := hinv
  have hone : c.sent ++ [] = [] ++ [⟨revision, sessions⟩] := by rw [List.append_nil, hsent]; rfl
  have hinc : Increasing (c.sent ++ []) := by
    rw [hone]
    exact List.pairwise_singleton _ _
  refine h.update hc ?_
  by_cases heq : revision = s.revision
  · rw [if_neg (not_not_intro heq)]
    exact ⟨[], _, hone, hinc, fun hyes => absurd hyes hno,
      fun _ => ⟨hle, (hlist heq).imp_left fun hcurrent => ⟨heq, hcurrent⟩⟩⟩
  · rw [if_pos heq]
    exact ⟨[], _, hone, hinc, Nat.lt_of_le_of_ne hle heq, fun hyes => absurd hyes hno,
      fun _ => ⟨Nat.le_refl _, Or.inl ⟨rfl, trivial⟩⟩⟩

theorem Inv.broadcastModels (h : Inv s) {revision : Nat} {readyConnections : List Nat}
    (hb : s.broadcast = some ⟨revision, .models, readyConnections⟩) :
    Inv { s with broadcast := some ⟨revision, .listing .stored, readyConnections⟩ } where
  nodup := h.nodup
  known := h.known
  connections := by
    intro c hc
    refine (h.connections c hc).congr rfl ?_ id fun _ => id
    simp [Awaits, hb]
  broadcast := by
    intro b hb'
    obtain rfl := Option.some.inj hb'
    have hbroadcast := h.broadcast _ hb
    refine ⟨hbroadcast.revision, ?_, hbroadcast.nodup, hbroadcast.known⟩
    intro listing hlisting
    obtain rfl := Phase.listing.inj hlisting
    exact Or.inl trivial

/-- A broadcast that is skipped, while no handshake holds an old list. -/
theorem Inv.skip (h : Inv s) (hnone : s.broadcast = none)
    (hready : ∀ c ∈ s.connections, c.stage.isReady = false)
    (hcaptured : ∀ c ∈ s.connections, s.CapturedCurrent c.sent c.stage) :
    Inv { s with queued := s.queued - 1 } where
  nodup := h.nodup
  known := h.known
  connections := by
    intro c hc
    have hinv := h.connections c hc
    have hcurrent := hcaptured c hc
    have hstageReady := hready c hc
    unfold ConnectionInv at hinv ⊢
    cases hstage : c.stage with
    | awaitingHello =>
      rw [hstage] at hinv
      exact hinv
    | handshaking get =>
      rw [hstage] at hinv hcurrent
      exact ⟨hinv.1, hinv.2.1, hinv.2.2.1, fun heq => Or.inl (hcurrent heq)⟩
    | greeting revision =>
      rw [hstage] at hinv hcurrent
      obtain ⟨sessions, hsent, hno, hle, -⟩ := hinv
      refine ⟨sessions, hsent, hno, hle, fun heq => Or.inl ?_⟩
      exact hcurrent heq ⟨revision, sessions⟩ (by rw [hsent]; exact List.mem_singleton_self _)
    | ready catchUp =>
      rw [hstage] at hstageReady
      cases hstageReady
  broadcast := fun b hb => by
    have hb : s.broadcast = some b := hb
    rw [hnone] at hb
    cases hb

/-- A broadcast begins: what every connection has, or is about to get, is older. -/
theorem Inv.beginBroadcast (h : Inv s) (hnone : s.broadcast = none) :
    Inv { s with
      queued := s.queued - 1
      revision := s.revision + 1
      broadcast := some ⟨s.revision + 1, .models,
        (s.connections.filter (·.stage.isReady)).map (·.id)⟩ } where
  nodup := h.nodup
  known := h.known
  connections := by
    intro c hc
    have hidle : ¬ s.Awaits c.id := by
      rintro ⟨b, hb, -⟩
      rw [hnone] at hb
      cases hb
    have hawaits : c.stage.isReady = true ↔
        c.id ∈ (s.connections.filter (·.stage.isReady)).map (·.id) := by
      constructor
      · intro hready
        exact List.mem_map_of_mem (List.mem_filter.mpr ⟨hc, hready⟩)
      · intro hmem
        obtain ⟨d, hd, hid⟩ := List.mem_map.mp hmem
        obtain ⟨hd, hready⟩ := List.mem_filter.mp hd
        rw [← h.eq_of_id hd hc hid]
        exact hready
    have hno : c.stage.isReady = false → ¬ Awaits { s with
        queued := s.queued - 1
        revision := s.revision + 1
        broadcast := some ⟨s.revision + 1, .models,
          (s.connections.filter (·.stage.isReady)).map (·.id)⟩ } c.id := by
      rintro hready ⟨b, hb, hid⟩
      obtain rfl := Option.some.inj hb
      rw [hawaits.mpr hid] at hready
      cases hready
    have hinv := h.connections c hc
    unfold ConnectionInv Reached at hinv ⊢
    cases hstage : c.stage with
    | awaitingHello =>
      rw [hstage] at hinv
      exact ⟨hinv.1, hno (by rw [hstage]; rfl)⟩
    | handshaking get =>
      rw [hstage] at hinv
      have hle := hinv.2.2.1
      exact ⟨hinv.1, hno (by rw [hstage]; rfl), Nat.le_succ_of_le hle, fun heq => by
        simp only at heq
        omega⟩
    | greeting revision =>
      rw [hstage] at hinv
      obtain ⟨sessions, hsent, -, hle, -⟩ := hinv
      exact ⟨sessions, hsent, hno (by rw [hstage]; rfl), Nat.le_succ_of_le hle, fun heq => by
        simp only at heq
        omega⟩
    | ready catchUp =>
      have hyes : c.id ∈ (s.connections.filter (·.stage.isReady)).map (·.id) :=
        hawaits.mp (by rw [hstage]; rfl)
      rw [hstage] at hinv
      cases catchUp with
      | none =>
        obtain ⟨before, last, hsent, hinc, -, hreached⟩ := hinv
        refine ⟨before, last, hsent, hinc, ?_, fun hno => absurd ⟨_, rfl, hyes⟩ hno⟩
        exact fun _ => Nat.lt_succ_of_le (hreached hidle).1
      | some get =>
        obtain ⟨before, last, hsent, hinc, hlt, -, hreached⟩ := hinv
        refine ⟨before, last, hsent, hinc, hlt, ?_, fun hno => absurd ⟨_, rfl, hyes⟩ hno⟩
        exact fun _ => Nat.lt_succ_of_le (hreached hidle).1
  broadcast := by
    intro b hb
    obtain rfl := Option.some.inj hb
    refine ⟨rfl, fun listing hlisting => Phase.noConfusion hlisting, ?_, ?_⟩
    · exact h.nodup.sublist (List.filter_sublist.map _)
    · intro id hid
      obtain ⟨c, hc, rfl⟩ := List.mem_map.mp hid
      exact h.known c (List.mem_filter.mp hc).1

/-- The broadcast has sent to everyone. -/
theorem Inv.endBroadcast (h : Inv s) {revision : Nat} {phase : Phase}
    (hb : s.broadcast = some ⟨revision, phase, []⟩) : Inv { s with broadcast := none } where
  nodup := h.nodup
  known := h.known
  connections := by
    intro c hc
    refine (h.connections c hc).congr rfl ?_ id fun _ => id
    simp [Awaits, hb]
  broadcast := fun b hb => by cases hb

/-- The broadcast is lost, but another is to come or nobody waits for it. -/
theorem Inv.failBroadcast (h : Inv s)
    (hlost : s.Pending ∨ ∀ c ∈ s.connections, ∀ b ∈ s.broadcast, c.id ∉ b.readyConnections) :
    Inv { s with broadcast := none } where
  nodup := h.nodup
  known := h.known
  connections := by
    intro c hc
    have hinv := h.connections c hc
    have hnone : ¬ Awaits { s with broadcast := none } c.id := by
      rintro ⟨b, hb, -⟩
      cases hb
    by_cases hawaits : s.Awaits c.id
    · -- what it has is older than the broadcast
      have hpending : s.Pending := hlost.resolve_right fun hgone => by
        obtain ⟨b, hb, hid⟩ := hawaits
        exact hgone c hc b hb hid
      have hreached : ∀ {revision : Nat} {listing : Listing}, s.Reached c.id revision listing →
          Reached { s with broadcast := none } c.id revision listing := fun hold =>
        ⟨fun hyes => absurd hyes hnone, fun _ => ⟨Nat.le_of_lt (hold.1 hawaits), Or.inr hpending⟩⟩
      unfold ConnectionInv at hinv ⊢
      cases hstage : c.stage with
      | awaitingHello =>
        rw [hstage] at hinv
        exact absurd hawaits hinv.2
      | handshaking get =>
        rw [hstage] at hinv
        exact absurd hawaits hinv.2.1
      | greeting r =>
        rw [hstage] at hinv
        obtain ⟨-, -, hno, -⟩ := hinv
        exact absurd hawaits hno
      | ready catchUp =>
        rw [hstage] at hinv
        cases catchUp with
        | none =>
          obtain ⟨before, last, hsent, hinc, hold⟩ := hinv
          exact ⟨before, last, hsent, hinc, hreached hold⟩
        | some get =>
          obtain ⟨before, last, hsent, hinc, hlt, hold⟩ := hinv
          exact ⟨before, last, hsent, hinc, hlt, hreached hold⟩
    · exact hinv.congr rfl (iff_of_false hnone hawaits) id fun _ => id
  broadcast := fun b hb => by cases hb

/-- The broadcast sends to a connection, or passes one that is disconnected. -/
theorem Inv.sendBroadcast (h : Inv s) {revision id : Nat} {sessions : List SessionMetadata}
    {readyConnections : List Nat}
    (hb : s.broadcast = some ⟨revision, .listing (.listed sessions), id :: readyConnections⟩)
    (hidle : ∀ c ∈ s.connections, c.id = id → c.stage.catchesUp = false) :
    Inv { s with
      broadcast := some ⟨revision, .listing (.listed sessions), readyConnections⟩
      connections := s.connections.map fun c =>
        if c.id = id then { c with sent := c.sent ++ [⟨revision, sessions⟩] } else c } := by
  have hbroadcast := h.broadcast _ hb
  have hrevision : revision = s.revision := hbroadcast.revision
  obtain ⟨hnot, hnodup⟩ := List.nodup_cons.mp hbroadcast.nodup
  have hids : ∀ c : ConnectionState, (if c.id = id then
      { c with sent := c.sent ++ [⟨revision, sessions⟩] } else c).id = c.id := by
    intro c
    split <;> rfl
  constructor
  · have hmap : (s.connections.map fun c =>
        if c.id = id then { c with sent := c.sent ++ [⟨revision, sessions⟩] } else c).map (·.id)
          = s.connections.map (·.id) := by
      rw [List.map_map]
      exact List.map_congr_left fun c _ => hids c
    rw [hmap]
    exact h.nodup
  · intro c hc
    obtain ⟨d, hd, rfl⟩ := List.mem_map.mp hc
    rw [hids d]
    exact h.known d hd
  · intro c hc
    obtain ⟨d, hd, rfl⟩ := List.mem_map.mp hc
    have hinv := h.connections d hd
    by_cases heq : d.id = id
    · -- it was waiting for the broadcast, so it is ready
      have hawaits : s.Awaits d.id := ⟨_, hb, by rw [heq]; exact List.mem_cons_self⟩
      rw [if_pos heq]
      unfold ConnectionInv at hinv ⊢
      cases hstage : d.stage with
      | awaitingHello =>
        rw [hstage] at hinv
        exact absurd hawaits hinv.2
      | handshaking get =>
        rw [hstage] at hinv
        exact absurd hawaits hinv.2.1
      | greeting r =>
        rw [hstage] at hinv
        obtain ⟨-, -, hno, -⟩ := hinv
        exact absurd hawaits hno
      | ready catchUp =>
        cases catchUp with
        | some get =>
          have hbusy := hidle d hd heq
          rw [hstage] at hbusy
          cases hbusy
        | none =>
          rw [hstage] at hinv
          obtain ⟨before, last, hsent, hinc, hold, -⟩ := hinv
          refine ⟨d.sent, ⟨revision, sessions⟩, rfl, ?_, ?_, ?_⟩
          · show Increasing (d.sent ++ _)
            rw [hsent] at hinc ⊢
            exact hinc.concat (by rw [hrevision]; exact hold hawaits)
          · rintro ⟨b, hb', hmem⟩
            obtain rfl := Option.some.inj hb'
            exact absurd (heq ▸ hmem) hnot
          · exact fun _ => ⟨Nat.le_of_eq hrevision,
              (hbroadcast.listing _ rfl).imp_left fun hcurrent => ⟨hrevision, hcurrent⟩⟩
    · rw [if_neg heq]
      refine hinv.congr rfl ?_ (fun hpend => hpend) fun _ hup => hup
      simp [Awaits, hb, heq]
  · intro b hb'
    obtain rfl := Option.some.inj hb'
    exact ⟨hrevision, fun listing hlisting => hbroadcast.listing listing hlisting, hnodup,
      fun i hi => hbroadcast.known i (List.mem_cons_of_mem _ hi)⟩

theorem Inv.disconnect (h : Inv s) (id : Nat) :
    Inv { s with connections := s.connections.filter (·.id ≠ id) } where
  nodup := h.nodup.sublist (List.filter_sublist.map _)
  known := fun c hc => h.known c (List.mem_filter.mp hc).1
  connections := fun c hc =>
    (h.connections c (List.mem_filter.mp hc).1).congr rfl Iff.rfl (fun hpend => hpend)
      fun _ => fun hup => hup
  broadcast := fun b hb => (h.broadcast b hb).congr rfl (Nat.le_refl _) fun _ => fun hup => hup

/-! ## Runs -/

theorem Inv.step (h : Inv s) {a : Action} (hsafe : s.Orderly a) (hs : s.step a = some s') :
    Inv s' := by
  cases a with
  | change stored live =>
    obtain rfl := Option.some.inj hs
    exact h.change
  | broadcast =>
    obtain rfl := Option.some.inj hs
    exact h.request
  | accept =>
    obtain rfl := Option.some.inj hs
    exact h.accept
  | hello id =>
    rw [PiServer.step] at hs
    split at hs
    · obtain rfl := Option.some.inj hs
      exact h.hello (by assumption)
    · cases hs
  | list reader =>
    exact h.continueList (fun _ _ hcurrent hnext => current_list hcurrent hnext) hs
  | snapshot reader sessionId answer =>
    exact h.continueList (fun _ _ hcurrent hnext => current_answer hcurrent hnext) hs
  | models reader =>
    cases reader with
    | broadcast =>
      rw [PiServer.step] at hs
      split at hs
      · obtain rfl := Option.some.inj hs
        exact h.broadcastModels (by assumption)
      · cases hs
    | connection id =>
      rw [PiServer.step] at hs
      split at hs
      · obtain rfl := Option.some.inj hs
        exact h.sendHello (by assumption)
      · obtain rfl := Option.some.inj hs
        exact h.sendCatchUp (by assumption)
      · cases hs
  | greeted id =>
    rw [PiServer.step] at hs
    split at hs
    · obtain rfl := Option.some.inj hs
      exact h.greeted (by assumption)
    · cases hs
  | perform =>
    rw [PiServer.step] at hs
    split at hs
    · rename_i hqueue
      obtain rfl := Option.some.inj hs
      unfold performBroadcast
      simp only
      split
      · rename_i hnobody
        have hready : ∀ c ∈ s.connections, c.stage.isReady = false := by
          intro c hc
          exact Bool.eq_false_iff.mpr (List.filter_eq_nil_iff.mp hnobody c hc)
        exact h.skip hqueue.2 hready (hsafe hready)
      · exact h.beginBroadcast hqueue.2
    · cases hs
  | fail =>
    rw [PiServer.step] at hs
    split at hs
    · cases hs
    · cases hs
    · obtain rfl := Option.some.inj hs
      exact h.failBroadcast hsafe
  | send =>
    rw [PiServer.step] at hs
    split at hs
    · rename_i revision sessions id readyConnections hb
      obtain rfl := Option.some.inj hs
      refine h.sendBroadcast hb fun c hc hid => hsafe c hc ?_
      rw [hb, hid]
      rfl
    · obtain rfl := Option.some.inj hs
      exact h.endBroadcast (by assumption)
    · cases hs
  | disconnect id =>
    obtain rfl := Option.some.inj hs
    exact h.disconnect id

theorem Reachable.inv (h : Reachable Orderly s) : Inv s := by
  induction h with
  | start stored live =>
    constructor
    · exact List.nodup_nil
    · exact fun c hc => absurd hc List.not_mem_nil
    · exact fun c hc => absurd hc List.not_mem_nil
    · exact fun b hb => by cases hb
  | step _ hsafe hs ih => exact ih.step hsafe hs

theorem ConnectionInv.increasing {c : ConnectionState} (h : s.ConnectionInv c) :
    Increasing c.sent := by
  unfold ConnectionInv at h
  cases hstage : c.stage with
  | awaitingHello =>
    rw [hstage] at h
    rw [h.1]
    exact List.Pairwise.nil
  | handshaking get =>
    rw [hstage] at h
    rw [h.1]
    exact List.Pairwise.nil
  | greeting revision =>
    rw [hstage] at h
    obtain ⟨sessions, hsent, -⟩ := h
    rw [hsent]
    exact List.pairwise_singleton _ _
  | ready catchUp =>
    rw [hstage] at h
    cases catchUp with
    | none =>
      obtain ⟨-, -, -, hinc, -⟩ := h
      exact hinc
    | some get =>
      obtain ⟨-, -, -, hinc, -⟩ := h
      exact hinc

/-- The state that steps lead to, each of which `safe` allows. -/
def run (safe : PiServer → Action → Prop) [∀ s a, Decidable (safe s a)] (s : PiServer)
    (as : List Action) : Option PiServer :=
  as.foldlM (fun s a => if safe s a then s.step a else none) s

theorem Reachable.run {safe : PiServer → Action → Prop} [∀ s a, Decidable (safe s a)]
    (as : List Action) {s : PiServer} (h : Reachable safe s) (hrun : s.run safe as = some s') :
    Reachable safe s' :=
  Runs.run_induction_if (fun _ _ _ h hsafe hs => .step h hsafe hs) as h hrun

/-- A handshake, and a session that is created behind it and broadcast. -/
def greetedRun (session : SessionMetadata) : List Action :=
  [.accept, .hello 0, .list (.connection 0), .list (.connection 0), .list (.connection 0),
    .models (.connection 0), .greeted 0, .change [session] .empty, .broadcast, .perform,
    .models .broadcast, .list .broadcast, .list .broadcast, .list .broadcast, .send, .send]

/-- A session that is created between the capture and the hello of the only connection:
its broadcast finds nobody ready, and the revisions are the same. -/
def skippedRun (session : SessionMetadata) : List Action :=
  [.accept, .hello 0, .list (.connection 0), .list (.connection 0), .list (.connection 0),
    .change [session] .empty, .broadcast, .perform, .models (.connection 0), .greeted 0]

/-- The broadcast of a session that is created during the second snapshot of a handshake
overtakes that snapshot. -/
def overtakenRun (session session' : SessionMetadata) : List Action :=
  [.accept, .hello 0, .list (.connection 0), .list (.connection 0), .list (.connection 0),
    .models (.connection 0), .greeted 0, .accept, .hello 1, .list (.connection 1),
    .list (.connection 1), .list (.connection 1), .models (.connection 1), .change [session] .empty,
    .broadcast, .perform, .models .broadcast, .list .broadcast, .list .broadcast, .list .broadcast,
    .send, .send, .greeted 1, .list (.connection 1), .list (.connection 1), .list (.connection 1),
    .change [session, session'] .empty, .broadcast, .perform, .models .broadcast, .list .broadcast,
    .list .broadcast, .list .broadcast, .send, .send, .send, .models (.connection 1)]

end PiServer

end PiMono.Server
