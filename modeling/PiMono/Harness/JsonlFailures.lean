import PiMono.Harness.JsonlStorage

/-!
# Appends that fail

An `appendFile` that reports failure may have written part of its line. The state in
memory does not change then, but the file does, and nothing repairs it before the next
`load`. `JsonlRun` is a process that goes on after such failures. `JsonlRun.Kept` says
that a `load` finds every acknowledged mutation; `kept_of_clean` that it does as long as
nothing is appended behind the bytes of a failed append (`JsonlRun.Clean`), and
`kept_behind_torn` what happens otherwise: an acknowledged name is gone.
-/

namespace PiMono.Harness

open SessionState

/-- How an `appendFile` ends: it succeeds, or it reports failure with the first so many of
its bytes written. -/
inductive AppendOutcome where
  | resolved
  | rejected (written : Nat)
  deriving DecidableEq, Repr

/-- What is in the file of what was to be appended. -/
def AppendOutcome.bytes (outcome : AppendOutcome) (line : List UInt8) : List UInt8 :=
  match outcome with
  | resolved => line
  | rejected written => line.take written

/-- What a process does with a session: operations, and loading it again. Either may
append to the file. -/
inductive JsonlStep where
  | operation (op : StorageOp) (append : AppendOutcome)
  | reload (path : JsString) (newline : AppendOutcome)

/-- A process with a session, the items of the mutations that were acknowledged, and
whether the file ends in bytes of a failed append. -/
structure JsonlRun where
  session : JsonlSession
  acknowledged : List LogItem
  torn : Bool

namespace JsonlRun

/-- The process has just come to have the session. -/
def start (w : JsonlSession) : JsonlRun := ⟨w, w.state.log, false⟩

/-- One step. An operation whose append fails rejects, and the state stays what it was; a
`load` that fails leaves the process with the session that it had. -/
def step (r : JsonlRun) : JsonlStep → JsonlRun
  | .operation op append =>
    match op.mutation r.session.state with
    | .error _ => r
    | .ok m =>
      match append with
      | .resolved => { r with
          session := r.session.perform op
          acknowledged := r.acknowledged ++ [m.item] }
      | .rejected written =>
        let bytes := (JsonlSession.lineBytes m).take written
        { r with
          session := { r.session with file := r.session.file ++ bytes }
          torn := r.torn || bytes ≠ [] }
  | .reload path newline =>
    match JsonlSession.load path r.session.file with
    | .error _ => r
    | .ok loaded =>
      match newline with
      | .resolved => ⟨loaded, r.acknowledged, false⟩
      | .rejected written =>
        -- a `load` that had no newline to append succeeds nevertheless
        if loaded.file = r.session.file ++ [0x0A] then
          { r with session :=
            { r.session with file := r.session.file ++ [(0x0A : UInt8)].take written } }
        else ⟨loaded, r.acknowledged, false⟩

def steps (r : JsonlRun) (ss : List JsonlStep) : JsonlRun := ss.foldl step r

/-- A `load` does not throw, and finds what was acknowledged, in order. -/
def Kept (r : JsonlRun) : Prop :=
  ∀ path, ∃ loaded, JsonlSession.load path r.session.file = .ok loaded ∧
    r.acknowledged.Sublist loaded.state.log

/-- The step appends nothing behind bytes of a failed append, and no number that is not a
safe integer. -/
def Clean (r : JsonlRun) : JsonlStep → Prop
  | .operation op append => ∀ m, op.mutation r.session.state = .ok m →
      append.bytes (JsonlSession.lineBytes m) = [] ∨
        r.torn = false ∧ r.session.state.nextSequence ≤ maxSafeInteger
  | .reload _ _ => True

/-- What holds of a process whose steps are clean: the file is made of whole lines that
lead to its state, with a prefix of one more line behind them if an append has failed. -/
structure Good (r : JsonlRun) (ms : List SessionMutation) (p : List UInt8) : Prop where
  replay : fresh.replay ms = .ok r.session.state
  safe : JsonlSession.SafelyNumbered ms
  file : r.session.file
    = fileBytes (JsonlSession.linesOf r.session.header ms) ++ p
  acknowledged : r.acknowledged.Sublist r.session.state.log
  whole : r.torn = false → p = []
  cut : p ≠ [] → ∃ m s', r.session.state.applyMutation m = .ok s' ∧
    r.session.state.nextSequence ≤ maxSafeInteger ∧ p <+: JsonlSession.lineBytes m

variable {r : JsonlRun} {ms : List SessionMutation} {p : List UInt8}

/-- What loading can add to the mutations of the state: the one whose append failed. -/
def Recovered (s : SessionState) (ms : List SessionMutation) (state : SessionState)
    (ms' : List SessionMutation) : Prop :=
  (state = s ∧ ms' = ms) ∨ ∃ m, s.applyMutation m = .ok state ∧
    s.nextSequence ≤ maxSafeInteger ∧ ms' = ms ++ [m]

/-- Loading the file of such a process. -/
theorem Good.load (h : r.Good ms p) (path : JsString) :
    ∃ state ms', JsonlSession.load path r.session.file
        = .ok ⟨r.session.header, state, fileBytes (JsonlSession.linesOf r.session.header ms')⟩ ∧
      Recovered r.session.state ms state ms' := by
  rw [h.file]
  by_cases hp : p = []
  · rw [hp, List.append_nil]
    exact ⟨_, ms, JsonlSession.load_lines h.replay h.safe, Or.inl ⟨rfl, rfl⟩⟩
  · obtain ⟨m, s', hm, hsafe, hprefix⟩ := h.cut hp
    rcases JsonlSession.load_cut h.replay hm hsafe hprefix with ⟨-, hload⟩ | ⟨-, hload⟩
    · exact ⟨_, ms, hload, Or.inl ⟨rfl, rfl⟩⟩
    · exact ⟨s', ms ++ [m], hload, Or.inr ⟨m, hm, hsafe, rfl⟩⟩

/-- What was acknowledged is still there. -/
theorem Good.recovered (h : r.Good ms p) {state : SessionState} {ms' : List SessionMutation}
    (hrec : Recovered r.session.state ms state ms') :
    fresh.replay ms' = .ok state ∧ JsonlSession.SafelyNumbered ms' ∧
      r.acknowledged.Sublist state.log := by
  rcases hrec with ⟨rfl, rfl⟩ | ⟨m, hm, hsafe, rfl⟩
  · exact ⟨h.replay, h.safe, h.acknowledged⟩
  · refine ⟨JsonlSession.replay_concat h.replay hm,
      JsonlSession.safelyNumbered_concat h.replay hm hsafe, ?_⟩
    rw [(commit_log (applyMutation_ok hm).2.2).2]
    exact h.acknowledged.trans (List.sublist_append_left _ _)

theorem Good.kept (h : r.Good ms p) : r.Kept := by
  intro path
  obtain ⟨state, ms', hload, hrec⟩ := h.load path
  exact ⟨_, hload, (h.recovered hrec).2.2⟩

theorem good_start {w : JsonlSession} (h : w.Holds) (hsafe : w.state.sequence ≤ maxSafeInteger) :
    ∃ ms, (start w).Good ms [] := by
  obtain ⟨ms, hreplay, hfile⟩ := h
  exact ⟨ms, {
    replay := hreplay
    safe := JsonlSession.safelyNumbered hreplay hsafe
    file := by rw [List.append_nil]; exact hfile
    acknowledged := List.Sublist.refl _
    whole := fun _ => rfl
    cut := fun hne => absurd rfl hne }⟩

/-- The process with what was loaded. -/
theorem good_loaded {state : SessionState} (header : JsonlV4Header)
    {acknowledged : List LogItem} (hreplay : fresh.replay ms = .ok state)
    (hsafe : JsonlSession.SafelyNumbered ms) (hsub : acknowledged.Sublist state.log) :
    Good ⟨⟨header, state, fileBytes (JsonlSession.linesOf header ms)⟩, acknowledged, false⟩ ms []
    where
  replay := hreplay
  safe := hsafe
  file := (List.append_nil _).symm
  acknowledged := hsub
  whole := fun _ => rfl
  cut := fun hne => absurd rfl hne

/-- An operation that is clean. -/
theorem Good.operation (h : r.Good ms p) (op : StorageOp) (append : AppendOutcome)
    (hclean : r.Clean (.operation op append)) :
    ∃ ms' p', (r.step (.operation op append)).Good ms' p' := by
  have hconsistent := consistent_fresh.replay h.replay
  cases hm : op.mutation r.session.state with
  | error error =>
    rw [step, hm]
    exact ⟨ms, p, h⟩
  | ok m =>
    obtain ⟨hseq, s', happly⟩ := StorageOp.applies hconsistent hm
    rw [step, hm]
    cases append with
    | resolved =>
      -- the line is not empty, so the file has no torn line
      have hclean' := hclean m hm
      have hne : JsonlSession.lineBytes m ≠ [] := by
        rw [JsonlSession.lineBytes_eq]
        exact List.append_ne_nil_of_right_ne_nil _ (List.cons_ne_nil _ _)
      obtain ⟨htorn, hsafe⟩ := hclean'.resolve_left hne
      have hperform : r.session.perform op
          = ⟨r.session.header, s', r.session.file ++ JsonlSession.lineBytes m⟩ := by
        rw [JsonlSession.perform, hm]
        simp only [called, happly]
      have hfile : r.session.file ++ JsonlSession.lineBytes m
          = fileBytes (JsonlSession.linesOf r.session.header (ms ++ [m])) := by
        rw [h.file, h.whole htorn, List.append_nil, JsonlSession.fileBytes_concat]
      have hsub : (r.acknowledged ++ [m.item]).Sublist s'.log := by
        rw [(commit_log (applyMutation_ok happly).2.2).2]
        exact h.acknowledged.append (List.Sublist.refl _)
      have hgood := good_loaded r.session.header (JsonlSession.replay_concat h.replay happly)
        (JsonlSession.safelyNumbered_concat h.replay happly hsafe) hsub
      refine ⟨ms ++ [m], [], ?_⟩
      simp only [hperform, hfile, htorn]
      exact hgood
    | rejected written =>
      by_cases hbytes : (JsonlSession.lineBytes m).take written = []
      · have hsame : r.session.file ++ (JsonlSession.lineBytes m).take written
            = r.session.file := by rw [hbytes, List.append_nil]
        refine ⟨ms, p, ?_⟩
        simp only [hbytes, List.append_nil, ne_eq, not_true_eq_false, decide_false, Bool.or_false]
        exact h
      · obtain ⟨htorn, hsafe⟩ := (hclean m hm).resolve_left hbytes
        refine ⟨ms, (JsonlSession.lineBytes m).take written, { h with
          file := ?_
          whole := ?_
          cut := fun _ => ⟨m, s', happly, hsafe, List.take_prefix _ _⟩ }⟩
        · show r.session.file ++ _ = _
          rw [h.file, h.whole htorn, List.append_nil]
        · intro hnot
          simp [hbytes] at hnot

theorem lineBytes_ne_newline (m : SessionMutation) : JsonlSession.lineBytes m ≠ [0x0A] := by
  intro h
  rw [JsonlSession.lineBytes_eq] at h
  have hnil : encodeUtf8 m.text = [] := List.append_cancel_right (h.trans (List.nil_append _).symm)
  have hdecode := decodeUtf8_encodeUtf8
    (stringify_object (JsValue.isObject_object m.toFields)).1.1
  rw [← SessionMutation.text, hnil] at hdecode
  exact JsonlSession.text_ne_nil m hdecode.symm

/-- A `load`, even one that cannot append its newline. -/
theorem Good.reload (h : r.Good ms p) (path : JsString) (newline : AppendOutcome) :
    ∃ ms' p', (r.step (.reload path newline)).Good ms' p' := by
  obtain ⟨state, ms', hload, hrec⟩ := h.load path
  obtain ⟨hreplay, hsafe, hsub⟩ := h.recovered hrec
  have hloaded := good_loaded r.session.header hreplay hsafe hsub
  rw [step, hload]
  cases newline with
  | resolved => exact ⟨ms', [], hloaded⟩
  | rejected written =>
    simp only []
    split
    · rename_i hfile
      rw [h.file, List.append_assoc] at hfile
      -- the newline is missing behind the text of the mutation whose append failed
      obtain ⟨m, hm, hnext, rfl⟩ : ∃ m, r.session.state.applyMutation m = .ok state ∧
          r.session.state.nextSequence ≤ maxSafeInteger ∧ ms' = ms ++ [m] := by
        rcases hrec with ⟨-, rfl⟩ | hrec
        · have hlength := congrArg List.length hfile
          simp at hlength
        · exact hrec
      rw [JsonlSession.fileBytes_concat] at hfile
      have hline : JsonlSession.lineBytes m = p ++ [0x0A] := List.append_cancel_left hfile
      have hp : p ≠ [] := by
        rintro rfl
        exact lineBytes_ne_newline m hline
      refine ⟨ms, p ++ [(0x0A : UInt8)].take written, { h with
        file := ?_
        whole := fun htorn => absurd (h.whole htorn) hp
        cut := fun _ => ⟨m, state, hm, hnext, ?_⟩ }⟩
      · show r.session.file ++ _ = _
        rw [h.file, List.append_assoc]
      · rw [hline]
        exact (List.prefix_append_right_inj p).mpr (List.take_prefix _ _)
    · exact ⟨ms', [], hloaded⟩

theorem Good.step (h : r.Good ms p) (s : JsonlStep) (hclean : r.Clean s) :
    ∃ ms' p', (r.step s).Good ms' p' := by
  cases s with
  | operation op append => exact h.operation op append hclean
  | reload path newline => exact h.reload path newline

/-- Every step of a run is clean. -/
def AllClean : JsonlRun → List JsonlStep → Prop
  | _, [] => True
  | r, s :: ss => r.Clean s ∧ AllClean (r.step s) ss

theorem Good.steps {ss : List JsonlStep} (h : r.Good ms p) (hclean : r.AllClean ss) :
    ∃ ms' p', (r.steps ss).Good ms' p' := by
  induction ss generalizing r ms p with
  | nil => exact ⟨ms, p, h⟩
  | cons s ss ih =>
    obtain ⟨ms₁, p₁, h₁⟩ := h.step s hclean.1
    exact ih h₁ hclean.2

/-- **A failed append endangers nothing** as long as nothing is appended behind it: in
every run of clean steps, a `load` finds all that was acknowledged. -/
theorem kept_of_clean {w : JsonlSession} (h : w.Holds) (hsafe : w.state.sequence ≤ maxSafeInteger)
    (ss : List JsonlStep) (hclean : (start w).AllClean ss) : ((start w).steps ss).Kept := by
  obtain ⟨ms, hgood⟩ := good_start h hsafe
  obtain ⟨ms', p', hgood'⟩ := hgood.steps hclean
  exact hgood'.kept

/-- A name whose append fails in the middle, and a load. -/
theorem kept_of_clean_name : ((start (JsonlSession.create JsonlSession.bareHeader)).steps
    [.operation (.setName (some (js "a"))) (.rejected 9), .reload (js "/s.jsonl") .resolved,
      .operation (.setName (some (js "b"))) .resolved]).Kept := by
  refine kept_of_clean (JsonlSession.holds_create _) (Nat.zero_le _) _
    ⟨fun m _ => Or.inr ⟨rfl, by decide⟩, trivial, fun m _ => Or.inr ⟨?_, ?_⟩, trivial⟩
  · decide
  · decide

/-- The append of one name fails with one byte written; that of the next succeeds. -/
def nameBehindTorn : JsonlRun :=
  (start (JsonlSession.create JsonlSession.bareHeader)).steps
    [.operation (.setName (some (js "a"))) (.rejected 1),
      .operation (.setName (some (js "b"))) .resolved]

/-- The line of the second name is dropped with the torn one. -/
theorem kept_behind_torn : ¬ ∀ (w : JsonlSession) (ss : List JsonlStep), w.Holds →
    w.state.sequence ≤ maxSafeInteger → ((start w).steps ss).Kept := by
  intro h
  have hkept : nameBehindTorn.Kept := h (JsonlSession.create JsonlSession.bareHeader) _
    (JsonlSession.holds_create _) (Nat.zero_le _)
  obtain ⟨loaded, hload, hsub⟩ := hkept (js "/s.jsonl")
  have hlost : (JsonlSession.load (js "/s.jsonl") nameBehindTorn.session.file).toOption.map
      (fun loaded => loaded.state.log) = some [] := by
    decide
  have hnamed : nameBehindTorn.acknowledged = [.name 1 (some (js "b"))] := by
    decide
  rw [hload] at hlost
  have hlog : loaded.state.log = [] := Option.some.inj hlost
  rw [hlog, hnamed] at hsub
  cases hsub

end JsonlRun

end PiMono.Harness
