import PiMono.CodingAgent.Memory
import PiMono.CodingAgent.SessionAppend

/-!
# What a memory run leaves behind

Two results about `updateSessionMemory` (`core/memory.ts:120-256`), as
`AgentSession._updateSessionMemory` calls it (`core/agent-session.ts:734-781`).
Its own appends stand between the second and the third request, and they move the
leaf that the guard compares.

* `updateSessionMemory_failed`: a run that fails leaves the session as the other
  parties made it exactly when it had nothing to append before the third request.
* `updateSessionMemory_commits`: a run that is left alone commits what it computed
  exactly when it does not ask the third request behind appends of its own.
-/

namespace PiMono

/-! ## Failing runs -/

/-- The session holds the entries of before, what others appended, and `own` more. -/
def MemoryState.Owns (w : World) (own : Nat) (s : MemoryState) : Prop :=
  s.world.manager.getEntries.length
    = w.manager.getEntries.length + own + s.byOthers.length

/-- The session holds the entries of before and what others appended. -/
def MemoryState.Untouched (w : World) (s : MemoryState) : Prop :=
  s.world.manager.getEntries = w.manager.getEntries ++ s.byOthers

namespace MemoryState

variable {w : World} {s s' : MemoryState} {own : Nat} {run : MemoryRun}

theorem others_getEntries (s : MemoryState) (steps : List SessionStep) :
    ∃ added, (s.others steps).world.manager.getEntries = s.world.manager.getEntries ++ added ∧
      (s.others steps).byOthers = s.byOthers ++ added := by
  obtain ⟨added, hadded⟩ := s.world.afterSteps_getEntries steps
  refine ⟨added, hadded, ?_⟩
  rw [others, hadded, List.drop_left]

/-- What others do, does not change whether the run owns entries. -/
def Stable (P : MemoryState → Prop) : Prop := ∀ s steps, P s → P (s.others steps)

theorem stable_untouched (w : World) : Stable (Untouched w) := by
  intro s steps h
  obtain ⟨added, hentries, hothers⟩ := s.others_getEntries steps
  rw [Untouched, hentries, hothers, h, List.append_assoc]

theorem stable_owns (w : World) (own : Nat) : Stable (Owns w own) := by
  intro s steps h
  obtain ⟨added, hentries, hothers⟩ := s.others_getEntries steps
  rw [Owns] at h
  rw [Owns, hentries, hothers, List.length_append, List.length_append, h, Nat.add_assoc]

/-- A stage of a run keeps `P`: in the state it goes on with, and in the run it ends. -/
def Keeps {α : Type} (P : MemoryState → Prop) (state : α → MemoryState)
    (stage : Except MemoryRun α) : Prop :=
  match stage with
  | .ok a => P (state a)
  | .error run => P run.toMemoryState

variable {P : MemoryState → Prop}

theorem Keeps.ask (hP : Stable P) (hs : P s) (isCurrentBranch : World → Bool) (request : Request)
    (prompt : JsString) : Keeps P Prod.fst (s.ask isCurrentBranch request prompt) := by
  have hothers := hP s request.meanwhile hs
  rw [MemoryState.ask]
  split
  · exact hothers
  · split <;> exact hothers

theorem Keeps.getBranch (hs : P s) : Keeps P (fun _ : List FileEntry => s) s.getBranch := by
  rw [MemoryState.getBranch]
  split <;> exact hs

theorem Keeps.bind {α β : Type} {f : α → MemoryState} {g : β → MemoryState}
    {stage : Except MemoryRun α} {rest : α → Except MemoryRun β} (h : Keeps P f stage)
    (hrest : ∀ a, P (f a) → Keeps P g (rest a)) : Keeps P g (stage >>= rest) := by
  cases stage with
  | error run => exact h
  | ok a => exact hrest a h

end MemoryState

/-- What a failed run must leave: the entries of before and those of others; what was
still to be observed is so again, unless another party observed it. -/
structure LeftUnchanged (w : World) (run : MemoryRun) : Prop where
  entries : run.world.manager.getEntries = w.manager.getEntries ++ run.byOthers
  sources : ∀ e ∈ unprocessedMessages w.manager.getEntries, e.id ∉ processedIds run.byOthers →
    e ∈ unprocessedMessages run.world.manager.getEntries

theorem leftUnchanged_iff {w : World} {run : MemoryRun} :
    LeftUnchanged w run ↔ run.world.manager.getEntries = w.manager.getEntries ++ run.byOthers := by
  refine ⟨fun h => h.entries, fun h => ⟨h, fun e he hothers => ?_⟩⟩
  have hprocessed : ∀ xs ys, processedIds (xs ++ ys) = processedIds xs ++ processedIds ys := by
    intro xs ys
    rw [processedIds, List.filterMap_append, List.flatMap_append]
    rfl
  obtain ⟨hmem, hfree⟩ := List.mem_filter.mp he
  rw [decide_eq_true_eq] at hfree
  refine List.mem_filter.mpr ⟨?_, decide_eq_true ⟨hfree.1, ?_⟩⟩
  · rw [h]
    exact List.mem_append_left _ hmem
  · rw [h, hprocessed, List.mem_append, not_or]
    exact ⟨hfree.2, hothers⟩

section Failing

variable {settings : MemorySettings} {force : Bool} {isCurrentBranch : World → Bool}
  {draws : Nat → Draws} {observing reflecting pruning : Request} {w : World}

variable {P : MemoryState → Prop}

open MemoryState (Stable Keeps)

theorem observe_keeps (hP : Stable P) {s : MemoryState} (hs : P s) (branch : List FileEntry) :
    Keeps P Prod.fst (observe settings force isCurrentBranch observing s branch) := by
  rw [observe]
  dsimp only
  split
  · exact (Keeps.ask hP hs ..).bind fun _ hs => hs
  · exact hs

theorem reflect_keeps (hP : Stable P) {s : MemoryState} (hs : P s) (branch : List FileEntry)
    (observed : Observed) :
    Keeps P Prod.fst (reflect settings force isCurrentBranch reflecting s branch observed) := by
  rw [reflect]
  refine (Keeps.getBranch hs).bind fun memories hs => ?_
  dsimp only
  split
  · exact (Keeps.ask hP hs ..).bind fun _ hs => hs
  · exact hs

theorem prune_keeps (hP : Stable P) {s : MemoryState} (hs : P s) :
    Keeps P Prod.fst (prune settings isCurrentBranch pruning s) := by
  rw [prune]
  refine (Keeps.getBranch hs).bind fun branch hs => ?_
  dsimp only
  split
  · exact (Keeps.ask hP hs ..).bind fun _ hs => hs
  · exact hs

/-- Up to the first append, the session is as the others made it. -/
theorem gather_keeps (hP : Stable P) (hs : P ⟨w, []⟩) :
    Keeps P Gathered.state (gather settings force isCurrentBranch observing reflecting w) := by
  rw [gather]
  dsimp only
  split
  · refine (Keeps.getBranch hs).bind fun branch hs => ?_
    refine (observe_keeps hP hs branch).bind fun (s, observed) hs => ?_
    exact (reflect_keeps hP hs branch observed).bind fun _ hs => hs
  · exact hs

/-- What is appended is the run's own. -/
theorem appendMemories_owns : ∀ {ms : List MemoryFields} {k own : Nat} {s s' : MemoryState},
    s.Owns w own → appendMemories draws k s ms = .ok s' → s'.Owns w (own + ms.length)
  | [], _, _, s, s', hs, h => by
    cases h
    exact hs
  | m :: ms, k, own, s, s', hs, h => by
    rw [appendMemories] at h
    split at h
    · rename_i world hworld
      have hnext : MemoryState.Owns w (own + 1) { s with world := world } := by
        have hgrow := World.appendBody_getEntries hworld
        rw [MemoryState.Owns] at hs
        show world.manager.getEntries.length = _ + (own + 1) + s.byOthers.length
        rw [hgrow, List.length_append, List.length_singleton, hs]
        omega
      have hrest := appendMemories_owns hnext h
      rwa [Nat.add_assoc, Nat.add_comm 1] at hrest
    · cases h

theorem appendMemories_error : ∀ {ms : List MemoryFields} {k : Nat} {s : MemoryState}
    {run : MemoryRun}, appendMemories draws k s ms = .error run →
    ∃ error, run.outcome = .failed error
  | [], _, _, _, h => by cases h
  | m :: ms, k, s, run, h => by
    rw [appendMemories] at h
    split at h
    · exact appendMemories_error h
    · cases h
      exact ⟨_, rfl⟩

/-- Where `commit` ends a run early, the session itself failed, or the third request did. -/
theorem commit_error {g : Gathered} {run : MemoryRun}
    (h : commit settings isCurrentBranch draws pruning g = .error run) :
    (∃ error, run.outcome = .failed error) ∨
      ∃ s, appendMemories draws 0 g.state g.early = .ok s ∧
        prune settings isCurrentBranch pruning s = .error run := by
  rw [commit] at h
  cases happend : appendMemories draws 0 g.state g.early with
  | error run' =>
    rw [happend] at h
    cases h
    exact Or.inl (appendMemories_error happend)
  | ok s =>
    rw [happend] at h
    cases hprune : prune settings isCurrentBranch pruning s with
    | error run' =>
      simp only [bind, Except.bind, hprune] at h
      cases h
      exact Or.inr ⟨s, rfl, hprune⟩
    | ok sd =>
      simp only [bind, Except.bind, hprune] at h
      exact Or.inl (appendMemories_error h)

theorem Gathered.early_eq_nil {g : Gathered} :
    g.early = [] ↔ g.observed.newObservations = [] ∧ g.observed.newTrace = [] := by
  simp [Gathered.early]

/-- **Failing runs**: a run that a request or a guard ends leaves the session
unchanged, exactly when it had found neither an observation nor a trace line by the
time of its first append. -/
theorem updateSessionMemory_failed (hfail :
      let run := updateSessionMemory settings force isCurrentBranch draws observing
        reflecting pruning w
      run.outcome = .threw ∨ run.outcome = .returned false) :
    LeftUnchanged w
        (updateSessionMemory settings force isCurrentBranch draws observing reflecting pruning w) ↔
      ∀ g, gather settings force isCurrentBranch observing reflecting w = .ok g →
        g.observed.newObservations = [] ∧ g.observed.newTrace = [] := by
  have hstart : MemoryState.Untouched w ⟨w, []⟩ := (List.append_nil _).symm
  have hgather : Keeps (MemoryState.Untouched w) Gathered.state
      (gather settings force isCurrentBranch observing reflecting w) :=
    gather_keeps (MemoryState.stable_untouched w) hstart
  rw [leftUnchanged_iff]
  simp only [← Gathered.early_eq_nil]
  rw [updateSessionMemory] at hfail ⊢
  cases hg : gather settings force isCurrentBranch observing reflecting w with
  | error run =>
    -- nothing was appended yet
    rw [hg] at hgather
    exact ⟨fun _ g h => (nomatch h), fun _ => hgather⟩
  | ok g =>
  rw [hg] at hgather hfail
  have huntouched : g.state.Untouched w := hgather
  simp only [bind, Except.bind] at hfail ⊢
  cases hc : commit settings isCurrentBranch draws pruning g with
  | ok s =>
    rw [hc] at hfail
    rcases hfail with hfail | hfail <;> cases hfail
  | error run =>
  rw [hc] at hfail
  rcases commit_error hc with ⟨error, hfailed⟩ | ⟨s, happend, hprune⟩
  · dsimp only at hfail
    rw [hfailed] at hfail
    rcases hfail with hfail | hfail <;> cases hfail
  · constructor
    · -- the run has as many entries of its own as it appended early
      rintro (hentries : run.world.manager.getEntries = _ ++ run.byOthers) g' ⟨⟩
      have howns : g.state.Owns w 0 := by
        rw [MemoryState.Owns, huntouched, List.length_append, Nat.add_zero]
      have hkeeps : Keeps (MemoryState.Owns w (0 + g.early.length)) Prod.fst
          (prune settings isCurrentBranch pruning s) :=
        prune_keeps (MemoryState.stable_owns w _) (appendMemories_owns howns happend)
      rw [hprune] at hkeeps
      have hcount : run.world.manager.getEntries.length
          = w.manager.getEntries.length + (0 + g.early.length) + run.byOthers.length := hkeeps
      rw [hentries, List.length_append] at hcount
      exact List.eq_nil_of_length_eq_zero (by omega)
    · intro hearly
      rw [hearly g rfl] at happend
      cases happend
      have hkeeps : Keeps (MemoryState.Untouched w) Prod.fst
          (prune settings isCurrentBranch pruning g.state) :=
        prune_keeps (MemoryState.stable_untouched w) huntouched
      rw [hprune] at hkeeps
      exact hkeeps

end Failing

/-! ### Runs on a session of one user message -/

def helloWorld : World :=
  World.sampleWorld ([] ++ [.appendMessage (.object [(js "role", .str (js "user")),
    (js "content", .str (js "hello"))])])

/-- Settings under which the message is observed, and nothing is reflected. -/
def sampleSettings (observationsPoolMaxTokens : Int) : MemorySettings :=
  ⟨true, 0, 1000000, observationsPoolMaxTokens, .ofNat 0⟩

/-- Draws that `helloWorld` has not made. -/
def laterDraws (n : Nat) : Draws := World.sampleDraws (n + 2)

/-- A reply with one observation. -/
def factReply : JsString := js "\x7b\"observations\":[\"a fact\"],\"trace\":[]\x7d"

/-- A run on `helloWorld`, by its first and its third request. -/
def helloRun (observationsPoolMaxTokens : Int) (observing pruning : Request) : MemoryRun :=
  updateSessionMemory (sampleSettings observationsPoolMaxTokens) false (onBranchOf helloWorld)
    laterDraws observing .throwing pruning helloWorld

/-- The third request throws, and the observation stays, with its source. -/
theorem updateSessionMemory_failed_keeps :
    let run := helloRun (-1) (.quiet fun _ => factReply) .throwing
    run.outcome = .threw ∧ ¬LeftUnchanged helloWorld run ∧
      unprocessedMessages run.world.manager.getEntries = [] ∧
      (unprocessedMessages helloWorld.manager.getEntries).map (·.id) = [js "11111111"] := by
  refine ⟨by decide, fun h => ?_, by decide, by decide⟩
  have hlength := congrArg List.length h.entries
  exact absurd hlength (by decide)

/-- The first request throws, and the session is as it was. -/
theorem updateSessionMemory_failed_first :
    LeftUnchanged helloWorld (helloRun (-1) .throwing .throwing) := by
  refine (updateSessionMemory_failed (Or.inl (by decide))).mpr fun g hg => ?_
  have herror : (gather (sampleSettings (-1)) false (onBranchOf helloWorld) .throwing .throwing
      helloWorld).isOk = false := by decide
  rw [hg] at herror
  cases herror

/-! ## Runs that are left alone -/

/-- The id that a draw gives an entry. -/
def Draws.shortId (d : Draws) : JsString := (d.uuids 0 0).short

/-- The ids of `n` draws are distinct and new in the session. -/
structure FreshDraws (w : World) (draws : Nat → Draws) (n : Nat) : Prop where
  injective : ∀ i < n, ∀ j < n, (draws i).shortId = (draws j).shortId → i = j
  ids : ∀ i < n, (draws i).shortId ∉ w.manager.fileEntries.map (·.id)
  /-- No memory supersedes them. -/
  unnamed : ∀ i < n, ∀ m ∈ w.manager.getEntries.filterMap FileEntry.memory?,
    (draws i).shortId ∉ m.supersedes

/-- The fields of a memory entry. -/
def MemoryFields.body (m : MemoryFields) : EntryBody :=
  .memory m.kind m.content m.projectKind m.sourceEntryIds m.supersedes

theorem World.nextId_eq {w : World} {d : Draws} (h : w.manager.byId.has d.shortId = false) :
    w.nextId d = d.shortId := by
  rw [World.nextId, generateId, generateIdFrom, if_neg]
  · rfl
  · rw [Bool.not_eq_true]
    exact h

section Quiet

variable {w : World} {es branch : List FileEntry} {draws : Nat → Draws}

/-- Behind the branch, an entry more. -/
theorem World.Inv.getBranch_snoc {w' : World} {e : FileEntry} (h : w.Inv es)
    (hbranch : w.manager.getBranch none = some branch) (h' : w'.Inv (es ++ [e]))
    (hparent : e.parentId = w.manager.leafId) (hleaf : w'.manager.leafId = some e.id) :
    w'.manager.getBranch none = some (branch ++ [e]) := by
  obtain ⟨branch', hbranch', hsub, hpath, hlast⟩ := h.getBranch_leaf
  obtain rfl := Option.some.inj (hbranch'.symm.trans hbranch)
  have hlink := h'.parentLink (List.mem_append_right es (List.mem_singleton_self e))
  refine h'.getBranch_eq (isPath_snoc.mpr ⟨hpath, ?_⟩) ?_ (by simp [hleaf])
  · rw [hlink, hparent, ← hlast, Option.or_none]
  · intro x hx
    rcases List.mem_append.mp hx with hx | hx
    · exact List.mem_append_left _ (hsub.subset hx)
    · exact List.mem_append_right _ hx

/-- With fresh ids the memories are appended, one behind the other. -/
theorem appendMemories_ok (byOthers : List FileEntry) : ∀ (ms : List MemoryFields) (k : Nat)
    {w : World} {es branch : List FileEntry}, w.Inv es →
    w.manager.getBranch none = some branch →
    (∀ i < k + ms.length, ∀ j < k + ms.length, (draws i).shortId = (draws j).shortId → i = j) →
    (∀ i < k + ms.length, k ≤ i → (draws i).shortId ∉ w.manager.fileEntries.map (·.id)) →
    ∃ w' added, appendMemories draws k ⟨w, byOthers⟩ ms = .ok ⟨w', byOthers⟩ ∧
      w'.Inv (es ++ added) ∧ w'.manager.getBranch none = some (branch ++ added) ∧
      added.map (·.body?) = ms.map (fun m => some m.body) ∧
      added.map (·.id) = (List.range' k ms.length).map (fun i => (draws i).shortId) ∧
      w'.manager.fileEntries = w.manager.fileEntries ++ added
  | [], k, w, es, branch, h, hbranch, _, _ =>
    ⟨w, [], rfl, by rwa [List.append_nil], by rwa [List.append_nil], rfl, rfl,
      (List.append_nil _).symm⟩
  | m :: ms, k, w, es, branch, h, hbranch, hinj, hids => by
    have hk : k < k + (m :: ms).length := by simp
    have hlength : k + 1 + ms.length = k + (m :: ms).length := by
      rw [List.length_cons]
      omega
    have hnew := hids k hk (Nat.le_refl k)
    have hnext : w.nextId (draws k) = (draws k).shortId := by
      refine World.nextId_eq ?_
      rw [← Bool.not_eq_true, h.has_iff]
      obtain ⟨t, p, hfile⟩ := h.fileEntries
      rw [hfile] at hnew
      exact fun hmem => hnew (List.mem_cons_of_mem _ hmem)
    obtain ⟨w₁, hw₁, hinv, hleaf⟩ := h.appendBody_of_not_label (draws k) m.body
      (by simp [MemoryFields.body]) (hnext ▸ hnew)
    have hfile := World.appendBody_fileEntries hw₁
    have hbranch₁ := h.getBranch_snoc hbranch hinv (FileEntry.create_parentId _ _ _ _)
      (by rw [hleaf, FileEntry.create_id])
    obtain ⟨w', added, happend, hinv', hbranch', hbodies, hadded, hfile'⟩ :=
      appendMemories_ok byOthers ms (k + 1) hinv hbranch₁ (hlength ▸ hinj) fun i hi hki => by
        rw [hfile, List.map_append, List.mem_append, not_or]
        refine ⟨hids i (hlength ▸ hi) (by omega), fun hmem => ?_⟩
        rw [List.map_singleton, FileEntry.create_id, List.mem_singleton, hnext] at hmem
        have := hinj i (hlength ▸ hi) k hk hmem
        omega
    refine ⟨w', .create (w.nextId (draws k)) w.manager.leafId (draws k).now m.body :: added,
      ?_, ?_, ?_, ?_, ?_, ?_⟩
    · have hmemory : w.appendMemory (draws k) m.kind m.content m.sourceEntryIds m.supersedes
          m.projectKind = .ok _ := hw₁
      rw [appendMemories, hmemory]
      exact happend
    · rwa [List.append_assoc] at hinv'
    · rwa [List.append_assoc] at hbranch'
    · rw [List.map_cons, List.map_cons, hbodies, FileEntry.create_body?]
    · rw [List.map_cons, hadded, FileEntry.create_id, hnext, List.length_cons, List.range'_succ,
        List.map_cons]
    · rw [hfile', hfile, List.append_assoc]
      rfl

/-- The memory that an entry with the fields of `m` is. -/
theorem memory?_of_body {e : FileEntry} {m : MemoryFields} (h : e.body? = some m.body) :
    e.memory? = some ⟨e.id, e.timestamp, m.kind, m.content, m.sourceEntryIds, m.supersedes⟩ := by
  rw [FileEntry.memory?, h]
  rfl

/-- Memories that supersede nothing, and are not superseded, are all active. -/
theorem activeMemory_append : ∀ {added : List FileEntry} {ms : List MemoryFields},
    added.map (·.body?) = ms.map (fun m => some m.body) →
    (∀ m ∈ ms, m.kind ≠ .supersedes) →
    (∀ e ∈ added, ∀ m ∈ branch.filterMap FileEntry.memory?, e.id ∉ m.supersedes) →
    activeMemory (branch ++ added) = activeMemory branch ++ added.filterMap FileEntry.memory? := by
  intro added ms hbodies hkinds hunnamed
  -- none of the new memories is a decision to supersede
  have hplain : ∀ m ∈ added.filterMap FileEntry.memory?, m.kind ≠ .supersedes ∧
      ∃ e ∈ added, e.id = m.id := by
    intro m hm
    obtain ⟨e, he, hem⟩ := List.mem_filterMap.mp hm
    have hbody : e.body? ∈ ms.map (fun m => some m.body) := hbodies ▸ List.mem_map_of_mem he
    obtain ⟨fields, hfields, hbody⟩ := List.mem_map.mp hbody
    rw [memory?_of_body hbody.symm] at hem
    obtain rfl := Option.some.inj hem
    exact ⟨hkinds fields hfields, e, he, rfl⟩
  have hnothing : ((added.filterMap FileEntry.memory?).flatMap fun m =>
      if m.kind = .supersedes then m.supersedes else []) = [] :=
    List.flatMap_eq_nil_iff.mpr fun m hm => if_neg (hplain m hm).1
  simp only [activeMemory, activeMemories]
  rw [List.filterMap_append, List.flatMap_append, hnothing, List.append_nil, List.filter_append]
  congr 1
  refine List.filter_eq_self.mpr fun m hm => decide_eq_true ⟨(hplain m hm).1, fun hmem => ?_⟩
  obtain ⟨m', hm', hsuper⟩ := List.mem_flatMap.mp hmem
  obtain ⟨-, e, he, hid⟩ := hplain m hm
  split at hsuper
  · exact hunnamed e he m' hm' (hid ▸ hsuper)
  · cases hsuper

/-- The contents of the new observations. -/
theorem contents_of_bodies : ∀ {added : List FileEntry} {ms : List MemoryFields},
    added.map (·.body?) = ms.map (fun m => some m.body) →
    ((added.filterMap FileEntry.memory?).filter (·.kind = .observation)).map (·.content)
      = (ms.filter (·.kind = .observation)).map (·.content)
  | [], [], _ => rfl
  | e :: added, m :: ms, h => by
    obtain ⟨he, hrest⟩ := List.cons.inj h
    rw [List.filterMap_cons, memory?_of_body he]
    have ih := contents_of_bodies hrest
    by_cases hm : m.kind = .observation
    · rw [List.filter_cons_of_pos (by simpa), List.filter_cons_of_pos (by simpa), List.map_cons,
        List.map_cons, ih]
    · rw [List.filter_cons_of_neg (by simpa), List.filter_cons_of_neg (by simpa), ih]

variable {settings : MemorySettings} {force : Bool} {isCurrentBranch : World → Bool}

theorem others_nil (s : MemoryState) : s.others [] = s := by
  have hsame : s.world.afterSteps [] = s.world := rfl
  rw [MemoryState.others, hsame, List.drop_length, List.append_nil]

/-- A quiet request that passes its guard changes nothing. -/
theorem ask_quiet {s : MemoryState} (hguard : isCurrentBranch s.world = true)
    (reply : JsString → JsString) (prompt : JsString) :
    s.ask isCurrentBranch (.quiet reply) prompt = .ok (s, reply prompt) := by
  rw [MemoryState.ask]
  simp only [Request.quiet, others_nil, hguard]
  rfl

/-- A quiet request that does not pass its guard ends the run. -/
theorem ask_quiet_error {s : MemoryState} (hguard : isCurrentBranch s.world = false)
    (reply : JsString → JsString) (prompt : JsString) :
    s.ask isCurrentBranch (.quiet reply) prompt = .error (s.stop (.returned false)) := by
  rw [MemoryState.ask]
  simp only [Request.quiet, others_nil, hguard]
  rfl

/-- Left alone, a run comes to its first append. -/
theorem gather_quiet (henabled : settings.enabled = true)
    (hbranch : w.manager.getBranch none = some branch) (hguard : isCurrentBranch w = true)
    (observing reflecting : JsString → JsString) :
    ∃ g, gather settings force isCurrentBranch (.quiet observing) (.quiet reflecting) w = .ok g ∧
      g.state = ⟨w, []⟩ := by
  have hget : MemoryState.getBranch ⟨w, []⟩ = .ok branch := by
    simp only [MemoryState.getBranch, hbranch]
  have hobserve : ∃ observed, observe settings force isCurrentBranch (.quiet observing) ⟨w, []⟩
      branch = .ok (⟨w, []⟩, observed) := by
    rw [observe]
    dsimp only
    split
    · rw [ask_quiet hguard]
      exact ⟨_, rfl⟩
    · exact ⟨_, rfl⟩
  obtain ⟨observed, hobserve⟩ := hobserve
  have hreflect : ∃ reflected, reflect settings force isCurrentBranch (.quiet reflecting) ⟨w, []⟩
      branch observed = .ok (⟨w, []⟩, reflected) := by
    rw [reflect, hget]
    simp only [bind, Except.bind]
    split
    · rw [ask_quiet hguard]
      exact ⟨_, rfl⟩
    · exact ⟨_, rfl⟩
  obtain ⟨reflected, hreflect⟩ := hreflect
  refine ⟨⟨⟨w, []⟩, observed, reflected⟩, ?_, rfl⟩
  simp only [gather, henabled, hget, hobserve, hreflect, bind, Except.bind]
  rfl

end Quiet

/-- The decisions to drop observations that a run makes on a branch. -/
def droppedOn (settings : MemorySettings) (pruning : JsString → JsString)
    (branch : List FileEntry) : List JsString :=
  if settings.observationsPoolMaxTokens <
    (contentTokens ((observationPool branch).map (·.content)) : Int) then
    parseSupersedes
      (pruning (dropperPrompt settings.observationsPoolTargetTokens (observationPool branch)))
      "supersedes" ((observationPool branch).map (·.id))
  else []

/-- A run commits everything it computed: it returns `true`, and the branch ends with
all its memories. -/
def CommitsAll (settings : MemorySettings) (pruning : JsString → JsString) (branch : List FileEntry)
    (g : Gathered) (run : MemoryRun) : Prop :=
  run.outcome = .returned true ∧ ∃ early late,
    run.world.manager.getBranch none = some (branch ++ early ++ late) ∧
    early.map (·.body?) = g.early.map (fun m => some m.body) ∧
    late.map (·.body?)
      = (g.late (droppedOn settings pruning (branch ++ early))).map (fun m => some m.body)

section Commit

variable {w w₁ : World} {es branch early : List FileEntry} {draws : Nat → Draws}
  {settings : MemorySettings} {g : Gathered} {n : Nat}

/-- An entry that a run appended has a drawn id. -/
theorem exists_draw {k m : Nat} {e : FileEntry}
    (hids : early.map (·.id) = (List.range' k m).map (fun i => (draws i).shortId))
    (he : e ∈ early) :
    ∃ i, (k ≤ i ∧ i < k + m) ∧ e.id = (draws i).shortId := by
  have hmem : e.id ∈ early.map (·.id) := List.mem_map_of_mem he
  rw [hids] at hmem
  obtain ⟨i, hi, hid⟩ := List.mem_map.mp hmem
  exact ⟨i, List.mem_range'_1.mp hi, hid.symm⟩

/-- The pool behind the early appends. -/
theorem contents_observationPool (hes : w.Inv es) (hsub : branch.Sublist es)
    (hfresh : FreshDraws w draws n)
    (hn : g.early.length ≤ n)
    (hbodies : early.map (·.body?) = g.early.map (fun m => some m.body))
    (hids : early.map (·.id)
      = (List.range' 0 g.early.length).map (fun i => (draws i).shortId)) :
    (observationPool (branch ++ early)).map (·.content)
      = (observationPool branch).map (·.content) ++ g.observed.newObservations := by
  have hkinds : ∀ m ∈ g.early, m.kind ≠ .supersedes := by
    intro m hm
    rcases List.mem_append.mp hm with hm | hm <;> obtain ⟨content, -, rfl⟩ := List.mem_map.mp hm <;>
      simp
  have hcontents : (g.early.filter (·.kind = .observation)).map (·.content)
      = g.observed.newObservations := by
    simp [Gathered.early, List.filter_append, List.filter_map, Function.comp_def]
  have hunnamed : ∀ e ∈ early, ∀ m ∈ branch.filterMap FileEntry.memory?, e.id ∉ m.supersedes := by
    intro e he m hm
    obtain ⟨i, hi, hid⟩ := exists_draw hids he
    rw [hid]
    refine hfresh.unnamed i (by omega) m ?_
    rw [hes.getEntries]
    exact (hsub.filterMap _).subset hm
  rw [observationPool, activeMemory_append hbodies hkinds hunnamed, List.filter_append,
    List.map_append,
    contents_of_bodies hbodies, hcontents]
  rfl

/-- The guard holds behind the early appends exactly when there were none. -/
theorem onBranchOf_early (hes : w.Inv es) (hbranch : w.manager.getBranch none = some branch)
    (hes₁ : w₁.Inv (es ++ early)) (hbranch₁ : w₁.manager.getBranch none = some (branch ++ early))
    (hnew : ∀ e ∈ early, e.id ∉ w.manager.fileEntries.map (·.id)) :
    onBranchOf w w₁ = true ↔ early = [] := by
  obtain ⟨_, hb, -, -, hlast⟩ := hes.getBranch_leaf
  obtain rfl := Option.some.inj (hb.symm.trans hbranch)
  obtain ⟨_, hb₁, -, -, hlast₁⟩ := hes₁.getBranch_leaf
  obtain rfl := Option.some.inj (hb₁.symm.trans hbranch₁)
  rw [onBranchOf, decide_eq_true_eq]
  constructor
  · intro hleaf
    by_contra hne
    obtain ⟨init, e, rfl⟩ := (List.eq_nil_or_concat early).resolve_left hne
    rw [List.concat_eq_append] at *
    rw [← List.append_assoc, List.getLast?_concat, hleaf] at hlast₁
    obtain ⟨t, p, hfile⟩ := hes.fileEntries
    refine hnew e (by simp) ?_
    rw [hfile]
    exact List.mem_cons_of_mem _ (hes.leaf e.id hlast₁.symm)
  · rintro rfl
    rw [← hlast, ← hlast₁, List.append_nil]

/-- The third request, quiet: what it drops, unless the guard ends the run. -/
theorem prune_quiet {isCurrentBranch : World → Bool} {s : MemoryState}
    (hbranch : s.world.manager.getBranch none = some branch) (pruning : JsString → JsString) :
    prune settings isCurrentBranch (.quiet pruning) s =
      if settings.observationsPoolMaxTokens
          < (contentTokens ((observationPool branch).map (·.content)) : Int) ∧
          isCurrentBranch s.world = false then
        .error (s.stop (.returned false))
      else .ok (s, droppedOn settings pruning branch) := by
  have hget : s.getBranch = .ok branch := by
    simp only [MemoryState.getBranch, hbranch]
  rw [prune, hget, droppedOn]
  simp only [bind, Except.bind]
  by_cases hpool : settings.observationsPoolMaxTokens
      < (contentTokens ((observationPool branch).map (·.content)) : Int)
  · rw [if_pos hpool, if_pos hpool]
    cases hguard : isCurrentBranch s.world with
    | true =>
      rw [ask_quiet hguard, if_neg (by simp)]
      rfl
    | false =>
      rw [ask_quiet_error hguard, if_pos ⟨hpool, rfl⟩]
  · rw [if_neg hpool, if_neg hpool, if_neg fun h => hpool h.1]

end Commit

/-- **Runs that are left alone**: where no other party acts and every request is
answered, a run commits everything it computed, exactly when it does not both
append something early and find too many observations behind it. -/
theorem updateSessionMemory_commits {w : World} (h : w.Reachable) {settings : MemorySettings}
    (henabled : settings.enabled = true) (force : Bool) (draws : Nat → Draws)
    (observing reflecting pruning : JsString → JsString) :
    ∃ branch g, w.manager.getBranch none = some branch ∧
      gather settings force (onBranchOf w) (.quiet observing) (.quiet reflecting) w = .ok g ∧
      (FreshDraws w draws (g.early.length + g.reflected.reflections.length + 2) →
        (CommitsAll settings pruning branch g
          (updateSessionMemory settings force (onBranchOf w) draws
            (.quiet observing) (.quiet reflecting) (.quiet pruning) w) ↔
          ¬(g.observed.newObservations ++ g.observed.newTrace ≠ [] ∧
            settings.observationsPoolMaxTokens <
              (contentTokens ((observationPool branch).map (·.content)
              ++ g.observed.newObservations) : Int)))) := by
  obtain ⟨es, hes⟩ := h.inv
  obtain ⟨branch, hbranch, hsub, -, -⟩ := hes.getBranch_leaf
  have hgather : ∃ g, gather settings force (onBranchOf w) (.quiet observing) (.quiet reflecting) w
      = .ok g ∧ g.state = ⟨w, []⟩ :=
    gather_quiet henabled hbranch (decide_eq_true rfl) observing reflecting
  obtain ⟨g, hg, hstate⟩ := hgather
  refine ⟨branch, g, hbranch, hg, fun hfresh => ?_⟩
  have hlate : ∀ dropped, (g.late dropped).length ≤ g.reflected.reflections.length + 2 := by
    intro dropped
    rw [Gathered.late, List.length_append, List.length_append, List.length_map]
    split <;> split <;> simp
  -- the early appends
  obtain ⟨w₁, early, happend, hes₁, hbranch₁, hbodies, hids, hfile⟩ :=
    appendMemories_ok [] g.early 0 hes hbranch
      (fun i hi j hj => hfresh.injective i (by omega) j (by omega))
      (fun i hi _ => hfresh.ids i (by omega))
  have hpool := contents_observationPool hes hsub hfresh (by omega) hbodies hids
  have hnew : ∀ e ∈ early, e.id ∉ w.manager.fileEntries.map (·.id) := by
    intro e he
    obtain ⟨i, hi, hid⟩ := exists_draw hids he
    rw [hid]
    exact hfresh.ids i (by omega)
  have hguard := onBranchOf_early hes hbranch hes₁ hbranch₁ hnew
  have hempty : early = [] ↔ g.observed.newObservations ++ g.observed.newTrace = [] := by
    rw [List.append_eq_nil_iff, ← Gathered.early_eq_nil, ← List.map_eq_nil_iff, hbodies,
      List.map_eq_nil_iff]
  rw [updateSessionMemory, hg]
  simp only [bind, Except.bind]
  rw [commit, hstate, happend]
  simp only [bind, Except.bind]
  rw [prune_quiet hbranch₁, hpool]
  by_cases hstop : settings.observationsPoolMaxTokens < (contentTokens
      ((observationPool branch).map (·.content) ++ g.observed.newObservations) : Int) ∧
      onBranchOf w w₁ = false
  · -- the run's own appends have moved the leaf
    rw [if_pos hstop]
    refine ⟨fun hcommits => (nomatch hcommits.1), fun hnot => absurd ⟨fun hnil => ?_, hstop.1⟩ hnot⟩
    rw [hguard.mpr (hempty.mpr hnil)] at hstop
    cases hstop.2
  · rw [if_neg hstop]
    dsimp only
    have hcount := hlate (droppedOn settings pruning (branch ++ early))
    obtain ⟨w₂, late, hlast, -, hbranch₂, hbodies₂, -⟩ :=
      appendMemories_ok [] (g.late (droppedOn settings pruning (branch ++ early))) g.early.length
        hes₁ hbranch₁
        (fun i hi j hj => hfresh.injective i (by omega) j (by omega))
        (fun i hi hge hmem => by
          rw [hfile, List.map_append, List.mem_append] at hmem
          rcases hmem with hmem | hmem
          · exact hfresh.ids i (by omega) hmem
          · obtain ⟨e, he, hid⟩ := List.mem_map.mp hmem
            obtain ⟨j, hj, hjd⟩ := exists_draw hids he
            have := hfresh.injective i (by omega) j (by omega) (hid.symm.trans hjd)
            omega)
    rw [hlast]
    refine ⟨fun _ => ?_, fun _ => ⟨rfl, early, late, hbranch₂, hbodies, hbodies₂⟩⟩
    rintro ⟨hsome, hmany⟩
    refine hstop ⟨hmany, ?_⟩
    rw [← Bool.not_eq_true, hguard, hempty]
    exact hsome

/-! ### A run on the session of one user message -/

theorem reachable_helloWorld : helloWorld.Reachable :=
  World.reachable_sampleWorld_nil.snoc _ (by decide) (by decide)

theorem freshDraws_helloWorld : FreshDraws helloWorld laterDraws 3 where
  injective := by decide
  ids := by decide
  unnamed := by decide

/-- The observation is appended, and the answer to the third request is dropped. -/
theorem updateSessionMemory_commits_not : helloWorld.Reachable ∧ (sampleSettings (-1)).enabled ∧
    FreshDraws helloWorld laterDraws 3 ∧
    (∀ branch g, ¬CommitsAll (sampleSettings (-1)) (fun _ => js "\x7b\x7d") branch g
      (updateSessionMemory (sampleSettings (-1)) false (onBranchOf helloWorld) laterDraws
        (.quiet fun _ => factReply) (.quiet fun _ => []) (.quiet fun _ => js "\x7b\x7d")
        helloWorld)) := by
  refine ⟨reachable_helloWorld, rfl, freshDraws_helloWorld, fun branch g hcommits => ?_⟩
  exact absurd hcommits.1 (by decide)

/-- With room in the pool the same run commits. -/
theorem updateSessionMemory_commits_hello : ∃ branch g,
    CommitsAll (sampleSettings 1000) (fun _ => []) branch g
      (updateSessionMemory (sampleSettings 1000) false (onBranchOf helloWorld) laterDraws
        (.quiet fun _ => factReply) (.quiet fun _ => []) (.quiet fun _ => []) helloWorld) := by
  obtain ⟨branch, g, hbranch, hg, hiff⟩ := updateSessionMemory_commits reachable_helloWorld
    (rfl : (sampleSettings 1000).enabled = true) false laterDraws (fun _ => factReply)
    (fun _ => []) (fun _ => [])
  have hcheck : ((helloWorld.manager.getBranch none).elim false fun branch =>
      (gather (sampleSettings 1000) false (onBranchOf helloWorld) (.quiet fun _ => factReply)
        (.quiet fun _ => []) helloWorld).toOption.elim false fun g =>
          decide (g.early.length + g.reflected.reflections.length + 2 = 3 ∧
            ¬1000 < (contentTokens ((observationPool branch).map (·.content)
              ++ g.observed.newObservations) : Int))) = true := by decide
  rw [hbranch, hg] at hcheck
  replace hcheck := of_decide_eq_true hcheck
  refine ⟨branch, g, (hiff (hcheck.1 ▸ freshDraws_helloWorld)).mpr fun hmany => ?_⟩
  exact hcheck.2 hmany.2

end PiMono
