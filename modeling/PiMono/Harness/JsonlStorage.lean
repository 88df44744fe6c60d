import PiMono.Lib.JsonLines
import PiMono.Harness.JsonlCodec
import PiMono.Harness.SessionStorage

/-!
# The JSONL storage

`packages/agent/src/harness/session/jsonl/storage.ts`: a session is a file of lines, and
the state that its mutations lead to. An operation appends its line and then applies the
mutation; `load` reads the lines back, drops a last line that is no JSON, and closes one
that lacks its newline.

`JsonlSession.Holds` is what a file has to do with the state in memory. `load_cut` is the
step: whatever byte prefix of one more line stands behind such a file, loading it
succeeds and leaves such a file again. `load_crash` says it of every run.
-/

namespace PiMono.Harness

open SessionState

/-- A session as the storage has it, and the bytes of its file. -/
structure JsonlSession where
  header : JsonlV4Header
  state : SessionState
  file : List UInt8

/-- What `load` throws: a `SessionError`, or the `TypeError` of `applyMutation`. -/
inductive LoadError where
  | session (error : SessionError)
  | typeError
  deriving DecidableEq

/-- `invalidFile` -/
def invalidFile (path : JsString) (line : Nat) (cause : JsString) : LoadError :=
  .session ⟨.invalidEntry, js "Invalid JSONL v4 session " ++ path ++ js ": line "
    ++ js (toString line) ++ js " " ++ cause⟩

namespace JsonlSession

/-- The loop of `load` over the lines behind those that are `done`. With the state it
returns the lines to keep, if the last line is torn. -/
def loadLines (path : JsString) :
    List JsString → SessionState → List JsString →
      Except LoadError (SessionState × Option (List JsString))
  | _, s, [] => .ok (s, none)
  | done, s, line :: rest =>
    match decodeMutation line with
    | .error error =>
      if rest = [] ∧ error.kind = .notJson then .ok (s, some done)
      else .error (invalidFile path (done.length + 1) error.message)
    | .ok m =>
      match s.applyMutation m with
      | .ok s' => loadLines path (done ++ [line]) s' rest
      | .error (.invalid message) =>
        .error (invalidFile path (done.length + 1) (js "Invalid session mutation: " ++ message))
      | .error (.typeError _) => .error .typeError

/-- `load` -/
def load (path : JsString) (file : List UInt8) : Except LoadError JsonlSession := do
  let content := decodeUtf8 file
  match physicalLines content with
  | [] => .error (invalidFile path 1 (js "is missing a header"))
  | first :: rest =>
    if first = [] then .error (invalidFile path 1 (js "is missing a header"))
    else
      match decodeHeader first with
      | .error error => .error (invalidFile path 1 error.message)
      | .ok header =>
        let (state, torn) ← loadLines path [first] fresh rest
        match torn with
        | some lines => return ⟨header, state, fileBytes lines⟩
        | none =>
          return ⟨header, state, if content.getLast? = some 0x0A then file else file ++ [0x0A]⟩

/-- `create` -/
def create (header : JsonlV4Header) : JsonlSession :=
  ⟨header, fresh, encodeUtf8 (encodeHeader header)⟩

/-- The bytes that an operation appends. -/
def lineBytes (m : SessionMutation) : List UInt8 := encodeUtf8 (encodeMutation m)

/-- An operation: its line is appended, then its mutation applied. An operation that
fails its checks changes nothing. -/
def perform (w : JsonlSession) (op : StorageOp) : JsonlSession :=
  match op.mutation w.state with
  | .error _ => w
  | .ok m => ⟨w.header, w.state.called m, w.file ++ lineBytes m⟩

/-- `fork`: a file with the mutations of the fork, loaded. -/
def fork (w : JsonlSession) (path : JsString) (header : JsonlV4Header) (options : ForkOptions) :
    Except LoadError JsonlSession :=
  match w.state.createForkMutations options with
  | .error error => .error (.session error)
  | .ok ms => load path (fileBytes (header.text :: ms.map SessionMutation.text))

/-- Every sequence of operations, of forks, of loads, and of crashes that leave a byte
prefix of the line of the last operation. -/
inductive Reachable : JsonlSession → Prop
  | create (header : JsonlV4Header) : Reachable (create header)
  | perform {w : JsonlSession} (op : StorageOp) : Reachable w → Reachable (w.perform op)
  | load {w w' : JsonlSession} (path : JsString) :
      Reachable w → load path w.file = .ok w' → Reachable w'
  | crash {w w' : JsonlSession} {op : StorageOp} {m : SessionMutation} (path : JsString)
      {p : List UInt8} : Reachable w → op.mutation w.state = .ok m → p <+: lineBytes m →
      JsonlSession.load path (w.file ++ p) = .ok w' → Reachable w'
  | fork {w w' : JsonlSession} (path : JsString) (header : JsonlV4Header) (options : ForkOptions) :
      Reachable w → w.fork path header options = .ok w' → Reachable w'

/-! ## Files that hold a state -/

/-- The lines of a session with these mutations. -/
def linesOf (header : JsonlV4Header) (ms : List SessionMutation) : List JsString :=
  header.text :: ms.map SessionMutation.text

/-- The file is made of the lines of mutations that lead to the state. -/
def Holds (w : JsonlSession) : Prop :=
  ∃ ms, fresh.replay ms = .ok w.state ∧ w.file = fileBytes (linesOf w.header ms)

theorem areLines (header : JsonlV4Header) (ms : List SessionMutation) :
    AreLines (linesOf header ms) := by
  intro line hline
  rcases List.mem_cons.mp hline with rfl | hline
  · exact (stringify_object (JsValue.isObject_object _)).1
  · obtain ⟨m, -, rfl⟩ := List.mem_map.mp hline
    exact (stringify_object (JsValue.isObject_object _)).1

/-- Numbers are at least 1, and at most that of the state. -/
theorem seq_of_replay {s : SessionState} {ms : List SessionMutation}
    (h : fresh.replay ms = .ok s) : ∀ m ∈ ms, 0 < m.seq ∧ m.seq ≤ s.sequence := by
  intro m hm
  have hlog : m.item ∈ s.log := by
    rw [replay_log h]
    exact List.mem_append_right _ (List.mem_map_of_mem hm)
  have hseq := (consistent_fresh.replay h).seq_le hlog
  rw [SessionMutation.seq_item] at hseq
  exact hseq

theorem replay_concat {s s' s'' : SessionState} {ms : List SessionMutation} {m : SessionMutation}
    (h : s.replay ms = .ok s') (hm : s'.applyMutation m = .ok s'') :
    s.replay (ms ++ [m]) = .ok s'' := by
  rw [replay_append h, replay_cons hm]
  rfl

/-! ## Loading such a file -/

/-- Every number is a safe integer, and at least 1. -/
def SafelyNumbered (ms : List SessionMutation) : Prop :=
  ∀ m ∈ ms, 0 < m.seq ∧ m.seq ≤ maxSafeInteger

/-- The loop reads the lines of mutations that apply. -/
theorem loadLines_texts {path : JsString} {ms : List SessionMutation} {s s' : SessionState}
    (hsafe : SafelyNumbered ms) (h : s.replay ms = .ok s')
    (done tail : List JsString) : loadLines path done s (ms.map SessionMutation.text ++ tail)
      = loadLines path (done ++ ms.map SessionMutation.text) s' tail := by
  induction ms generalizing s done with
  | nil =>
    obtain rfl := Except.ok.inj h
    simp
  | cons m ms ih =>
    obtain ⟨hm, hms⟩ := List.forall_mem_cons.mp hsafe
    rw [replay, List.foldlM_cons] at h
    cases happly : s.applyMutation m with
    | error error =>
      rw [happly] at h
      cases h
    | ok s₁ =>
      rw [happly] at h
      rw [List.map_cons, List.cons_append, loadLines, decodeMutation_text hm.1 hm.2]
      simp only [happly]
      rw [ih hms h, List.append_assoc]
      rfl

/-- The loop gives up at a number that is not safe. -/
theorem loadLines_tooLarge {path : JsString} {ms : List SessionMutation} {s s' : SessionState}
    (hpos : ∀ m ∈ ms, 0 < m.seq) (h : s.replay ms = .ok s')
    (hlarge : ¬SafelyNumbered ms) (done tail : List JsString) :
    ∃ error, loadLines path done s (ms.map SessionMutation.text ++ tail) = .error error := by
  induction ms generalizing s done with
  | nil => exact absurd (fun m hm => nomatch hm) hlarge
  | cons m ms ih =>
    obtain ⟨hm, hms⟩ := List.forall_mem_cons.mp hpos
    rw [List.map_cons, List.cons_append, loadLines]
    by_cases hbig : maxSafeInteger < m.seq
    · have hkind : ¬(ms.map SessionMutation.text ++ tail = [] ∧
          (invalidField "seq").kind = .notJson) := fun hcon => by cases hcon.2
      rw [decodeMutation_tooLarge hbig]
      simp only [if_neg hkind]
      exact ⟨_, rfl⟩
    · rw [replay, List.foldlM_cons] at h
      cases happly : s.applyMutation m with
      | error error =>
        rw [happly] at h
        cases h
      | ok s₁ =>
        rw [happly] at h
        rw [decodeMutation_text hm (Nat.not_lt.mp hbig)]
        simp only [happly]
        refine ih hms h (fun hsafe => hlarge ?_) _
        exact List.forall_mem_cons.mpr ⟨⟨hm, Nat.not_lt.mp hbig⟩, hsafe⟩

theorem header_ne_nil (header : JsonlV4Header) : header.text ≠ [] := by
  intro hnil
  obtain ⟨-, body, hbody⟩ := stringify_object (JsValue.isObject_object header.toFields)
  rw [JsonlV4Header.text, hbody] at hnil
  cases hnil

/-- Loading a file with an open last line. -/
theorem load_open (path : JsString) (header : JsonlV4Header) (ms : List SessionMutation)
    {p : List UInt8} (hp : 0x0A ∉ decodeUtf8 p) :
    load path (fileBytes (linesOf header ms) ++ p) = (do
      let (state, torn) ← loadLines path [header.text] fresh
        (ms.map SessionMutation.text ++ if decodeUtf8 p = [] then [] else [decodeUtf8 p])
      match torn with
      | some lines => return ⟨header, state, fileBytes lines⟩
      | none => return ⟨header, state,
          if decodeUtf8 p = [] then fileBytes (linesOf header ms) ++ p
          else fileBytes (linesOf header ms) ++ p ++ [0x0A]⟩) := by
  have hdecode := decodeUtf8_file_append (areLines header ms) p
  have hlines : physicalLines (decodeUtf8 (fileBytes (linesOf header ms) ++ p))
      = header.text :: (ms.map SessionMutation.text
        ++ if decodeUtf8 p = [] then [] else [decodeUtf8 p]) := by
    rw [hdecode, physicalLines_open (areLines header ms) hp]
    split
    · rw [List.append_nil]
      rfl
    · rfl
  have hlast : ((decodeUtf8 (fileBytes (linesOf header ms) ++ p)).getLast? = some 0x0A)
      ↔ decodeUtf8 p = [] := by
    rw [hdecode]
    constructor
    · intro hend
      rcases List.eq_nil_or_concat (decodeUtf8 p) with hnil | ⟨front, u, hu⟩
      · exact hnil
      · rw [List.concat_eq_append] at hu
        rw [hu, ← List.append_assoc, List.getLast?_concat] at hend
        rw [hu, Option.some.inj hend] at hp
        exact absurd (List.mem_append_right _ (List.mem_singleton.mpr rfl)) hp
    · intro hnil
      rw [hnil, List.append_nil]
      have hcons : linesOf header ms ≠ [] := List.cons_ne_nil _ _
      obtain ⟨front, line, hfront⟩ := (List.eq_nil_or_concat (linesOf header ms)).resolve_left hcons
      rw [hfront, List.concat_eq_append, List.flatMap_append, List.flatMap_singleton,
        ← List.append_assoc, List.getLast?_concat]
  unfold load
  simp only [hlines, if_neg (header_ne_nil header), decodeHeader_text, hlast]

section Load

variable {path : JsString} {header : JsonlV4Header} {ms : List SessionMutation} {s : SessionState}

theorem safelyNumbered (h : fresh.replay ms = .ok s) (hsafe : s.sequence ≤ maxSafeInteger) :
    SafelyNumbered ms := by
  intro m hm
  obtain ⟨hpos, hle⟩ := seq_of_replay h m hm
  exact ⟨hpos, Nat.le_trans hle hsafe⟩

/-- A file of whole lines is loaded and left as it is. -/
theorem load_lines (h : fresh.replay ms = .ok s) (hsafe : SafelyNumbered ms) :
    load path (fileBytes (linesOf header ms)) = .ok ⟨header, s, fileBytes (linesOf header ms)⟩ := by
  have hopen := @load_open path header ms [] List.not_mem_nil
  have hnil : decodeUtf8 [] = [] := rfl
  simp only [hnil, if_true, loadLines_texts hsafe h] at hopen
  simp only [List.append_nil] at hopen
  rw [hopen]
  rfl

/-- A last line that is no JSON is dropped. -/
theorem load_torn (h : fresh.replay ms = .ok s) (hsafe : SafelyNumbered ms)
    {p : List UInt8} (hline : 0x0A ∉ decodeUtf8 p) (hne : decodeUtf8 p ≠ [])
    (hparse : JsValue.parse (decodeUtf8 p) = none) :
    load path (fileBytes (linesOf header ms) ++ p)
      = .ok ⟨header, s, fileBytes (linesOf header ms)⟩ := by
  have hnotJson : decodeMutation (decodeUtf8 p) = .error ⟨.notJson, js "is not valid JSON"⟩ := by
    rw [decodeMutation, parseObject, hparse]
    rfl
  rw [load_open path header ms hline]
  simp only [if_neg hne, loadLines_texts hsafe h, loadLines, hnotJson, and_self, if_true]
  rfl

theorem lineBytes_eq (m : SessionMutation) :
    lineBytes m = encodeUtf8 m.text ++ [0x0A] := by
  have hwf := (stringify_object (JsValue.isObject_object m.toFields)).1.1
  have hnewline : WellFormed [(0x0A : UInt16)] := wellFormed_unit (by decide) (by decide)
  rw [lineBytes, encodeMutation, SessionMutation.text, encodeUtf8_append hwf hnewline]
  rfl

theorem fileBytes_concat (header : JsonlV4Header) (ms : List SessionMutation)
    (m : SessionMutation) : fileBytes (linesOf header (ms ++ [m]))
      = fileBytes (linesOf header ms) ++ lineBytes m := by
  have hwf : WellFormed m.text := (stringify_object (JsValue.isObject_object m.toFields)).1.1
  have hlines : linesOf header (ms ++ [m]) = linesOf header ms ++ [m.text] := by
    rw [linesOf, List.map_append]
    rfl
  rw [hlines, fileBytes_append (areLines header ms) hwf]
  rfl

variable {m : SessionMutation} {s' : SessionState}

theorem text_ne_nil (m : SessionMutation) : m.text ≠ [] := by
  intro hnil
  obtain ⟨-, body, hbody⟩ := stringify_object (JsValue.isObject_object m.toFields)
  rw [SessionMutation.text, hbody] at hnil
  cases hnil

/-- A last line that only lacks its newline is read, and gets one. -/
theorem load_text (h : fresh.replay ms = .ok s) (hm : s.applyMutation m = .ok s')
    (hsafe : SafelyNumbered (ms ++ [m])) :
    load path (fileBytes (linesOf header ms) ++ encodeUtf8 m.text)
      = .ok ⟨header, s', fileBytes (linesOf header (ms ++ [m]))⟩ := by
  obtain ⟨⟨hwf, hline⟩, -⟩ := stringify_object (JsValue.isObject_object m.toFields)
  have hdecode : decodeUtf8 (encodeUtf8 m.text) = m.text := decodeUtf8_encodeUtf8 hwf
  have hmsafe := hsafe m (by simp)
  have hms : SafelyNumbered ms := fun m' hm' => hsafe m' (List.mem_append_left _ hm')
  rw [load_open path header ms (by rw [hdecode]; exact hline), hdecode]
  simp only [if_neg (text_ne_nil m), loadLines_texts hms h, loadLines,
    decodeMutation_text hmsafe.1 hmsafe.2, hm]
  rw [fileBytes_concat, lineBytes_eq, ← List.append_assoc]
  rfl

/-- The numbers of a line more. -/
theorem safelyNumbered_concat (h : fresh.replay ms = .ok s) (hm : s.applyMutation m = .ok s')
    (hsafe : s.nextSequence ≤ maxSafeInteger) : SafelyNumbered (ms ++ [m]) := by
  refine safelyNumbered (replay_concat h hm) ?_
  obtain ⟨hseq, -, hcommit⟩ := applyMutation_ok hm
  rw [(commit_log hcommit).1, hseq]
  exact hsafe

/-- A byte prefix of a line: the text is there, with or without the newline, or what is
there is nothing or an open line. -/
theorem line_cases (m : SessionMutation) {p : List UInt8} (hp : p <+: lineBytes m) :
    (encodeUtf8 m.text <+: p ∧ (p = encodeUtf8 m.text ∨ p = lineBytes m)) ∨
    (¬encodeUtf8 m.text <+: p ∧ (p = [] ∨ (0x0A ∉ decodeUtf8 p ∧ decodeUtf8 p ≠ [] ∧
      JsValue.parse (decodeUtf8 p) = none))) := by
  obtain ⟨rest, hrest⟩ := hp
  obtain ⟨⟨hwf, hline⟩, -⟩ := stringify_object (JsValue.isObject_object m.toFields)
  have hdecode : decodeUtf8 (encodeUtf8 m.text) = m.text := decodeUtf8_encodeUtf8 hwf
  rcases cut_line (JsValue.isObject_object m.toFields) hrest with rfl | rfl | rfl | hopen
  · refine Or.inr ⟨fun hprefix => text_ne_nil m ?_, Or.inl rfl⟩
    rw [← hdecode, List.prefix_nil.mp hprefix]
    rfl
  · exact Or.inl ⟨List.prefix_refl _, Or.inl rfl⟩
  · rw [List.append_nil] at hrest
    refine Or.inl ⟨?_, Or.inr hrest⟩
    rw [hrest, lineBytes_eq]
    exact List.prefix_append _ _
  · refine Or.inr ⟨?_, Or.inr hopen⟩
    rintro ⟨more, rfl⟩
    obtain ⟨hnewline, -, hparse⟩ := hopen
    -- what follows the text within the line is a newline at most
    have hmore : more ++ rest = [0x0A] := by
      rw [List.append_assoc, lineBytes_eq] at hrest
      exact List.append_cancel_left hrest
    rcases List.append_eq_singleton_iff.mp hmore with ⟨rfl, -⟩ | ⟨rfl, -⟩
    · rw [List.append_nil, hdecode] at hparse
      have hback : JsValue.parse m.text = some (.object m.toFields) := JsValue.parse_stringify _
      rw [hback] at hparse
      cases hparse
    · rw [← lineBytes_eq, lineBytes, decodeUtf8_encodeUtf8] at hnewline
      · exact hnewline (List.mem_append_right _ (List.mem_singleton.mpr rfl))
      · exact hwf.append (wellFormed_unit (by decide) (by decide))

/-- **What a crash leaves.** With any byte prefix of one more line behind it, a file is
loaded as before, or with the mutation of that line if its whole text is there. -/
theorem load_cut (h : fresh.replay ms = .ok s) (hm : s.applyMutation m = .ok s')
    (hsafe : s.nextSequence ≤ maxSafeInteger) {p : List UInt8} (hp : p <+: lineBytes m) :
    (¬ encodeUtf8 m.text <+: p ∧ load path (fileBytes (linesOf header ms) ++ p)
      = .ok ⟨header, s, fileBytes (linesOf header ms)⟩) ∨
    (encodeUtf8 m.text <+: p ∧ load path (fileBytes (linesOf header ms) ++ p)
      = .ok ⟨header, s', fileBytes (linesOf header (ms ++ [m]))⟩) := by
  have hms := safelyNumbered h (Nat.le_of_succ_le hsafe)
  have hmsm := safelyNumbered_concat h hm hsafe
  rcases line_cases m hp with ⟨htext, rfl | rfl⟩ | ⟨htext, rfl | ⟨hnewline, hne, hparse⟩⟩
  · exact Or.inr ⟨htext, load_text h hm hmsm⟩
  · exact Or.inr ⟨htext, by rw [← fileBytes_concat, load_lines (replay_concat h hm) hmsm]⟩
  · exact Or.inl ⟨htext, by rw [List.append_nil, load_lines h hms]⟩
  · exact Or.inl ⟨htext, load_torn h hms hnewline hne hparse⟩

end Load

/-! ## Every run -/

theorem holds_create (header : JsonlV4Header) : (create header).Holds := by
  refine ⟨[], rfl, ?_⟩
  show encodeUtf8 (encodeHeader header) = encodeUtf8 (List.flatMap _ [header.text])
  rw [List.flatMap_singleton]
  rfl

/-- An operation that passes its checks. -/
theorem Holds.perform {w : JsonlSession} (h : w.Holds) {op : StorageOp} {m : SessionMutation}
    (hm : op.mutation w.state = .ok m) : ∃ s', w.state.applyMutation m = .ok s' ∧
      w.perform op = ⟨w.header, s', w.file ++ lineBytes m⟩ := by
  obtain ⟨ms, hreplay, -⟩ := h
  obtain ⟨-, s', happly⟩ := StorageOp.applies (consistent_fresh.replay hreplay) hm
  refine ⟨s', happly, ?_⟩
  rw [JsonlSession.perform, hm]
  simp only [called, happly]

theorem holds_perform {w : JsonlSession} (h : w.Holds) (op : StorageOp) : (w.perform op).Holds := by
  cases hm : op.mutation w.state with
  | error error =>
    rw [perform, hm]
    exact h
  | ok m =>
    obtain ⟨s', happly, hperform⟩ := h.perform hm
    obtain ⟨ms, hreplay, hfile⟩ := h
    rw [hperform]
    exact ⟨ms ++ [m], replay_concat hreplay happly, by rw [hfile, fileBytes_concat]⟩

section Loaded

variable {path : JsString} {header : JsonlV4Header} {ms : List SessionMutation} {s : SessionState}
  {w : JsonlSession}

/-- Mutations behind which something can be loaded are safely numbered. -/
theorem safelyNumbered_of_load (h : fresh.replay ms = .ok s) {p : List UInt8}
    (hp : 0x0A ∉ decodeUtf8 p) (hload : load path (fileBytes (linesOf header ms) ++ p) = .ok w) :
    SafelyNumbered ms := by
  by_contra hlarge
  obtain ⟨error, herror⟩ := @loadLines_tooLarge path ms fresh s
    (fun m hm => (seq_of_replay h m hm).1) h hlarge [header.text]
    (if decodeUtf8 p = [] then [] else [decodeUtf8 p])
  rw [load_open path header ms hp, herror] at hload
  cases hload

/-- A file of whole lines that can be loaded holds what is loaded. -/
theorem holds_of_load (h : fresh.replay ms = .ok s)
    (hload : load path (fileBytes (linesOf header ms)) = .ok w) : w.Holds := by
  have hsafe := @safelyNumbered_of_load path header ms s w h [] List.not_mem_nil
    (by rw [List.append_nil]; exact hload)
  rw [load_lines h hsafe] at hload
  obtain rfl := Except.ok.inj hload
  exact ⟨ms, h, rfl⟩

/-- The same after a crash. -/
theorem holds_of_load_cut (h : fresh.replay ms = .ok s) {m : SessionMutation} {s' : SessionState}
    (hm : s.applyMutation m = .ok s') {p : List UInt8} (hp : p <+: lineBytes m)
    (hload : load path (fileBytes (linesOf header ms) ++ p) = .ok w) : w.Holds := by
  rcases line_cases m hp with ⟨-, rfl | rfl⟩ | ⟨-, rfl | ⟨hnewline, hne, hparse⟩⟩
  · by_cases hsafe : SafelyNumbered (ms ++ [m])
    · rw [load_text h hm hsafe] at hload
      obtain rfl := Except.ok.inj hload
      exact ⟨ms ++ [m], replay_concat h hm, rfl⟩
    · -- a number that is not safe is no torn line: `load` gives up
      obtain ⟨⟨hwf, hline⟩, -⟩ := stringify_object (JsValue.isObject_object m.toFields)
      have hdecode : decodeUtf8 (encodeUtf8 m.text) = m.text := decodeUtf8_encodeUtf8 hwf
      have hreplay := replay_concat h hm
      obtain ⟨error, herror⟩ := @loadLines_tooLarge path (ms ++ [m]) fresh s'
        (fun m' hm' => (seq_of_replay hreplay m' hm').1) hreplay hsafe [header.text] []
      rw [List.append_nil, List.map_append] at herror
      rw [load_open path header ms (by rw [hdecode]; exact hline), hdecode,
        if_neg (text_ne_nil m)] at hload
      have hloop : loadLines path [header.text] fresh (ms.map SessionMutation.text ++ [m.text])
          = .error error := herror
      rw [hloop] at hload
      cases hload
  · rw [← fileBytes_concat] at hload
    exact holds_of_load (replay_concat h hm) hload
  · rw [List.append_nil] at hload
    exact holds_of_load h hload
  · rw [load_torn h (safelyNumbered_of_load h hnewline hload) hnewline hne hparse] at hload
    obtain rfl := Except.ok.inj hload
    exact ⟨ms, h, rfl⟩

end Loaded

/-- Along every run the file holds the state. -/
theorem Reachable.holds {w : JsonlSession} (h : Reachable w) : w.Holds := by
  induction h with
  | create header => exact holds_create header
  | perform op _ ih => exact holds_perform ih op
  | load path _ hload ih =>
    obtain ⟨ms, hreplay, hfile⟩ := ih
    rw [hfile] at hload
    exact holds_of_load hreplay hload
  | crash path _ hm hp hload ih =>
    obtain ⟨s', happly, -⟩ := ih.perform hm
    obtain ⟨ms, hreplay, hfile⟩ := ih
    rw [hfile] at hload
    exact holds_of_load_cut hreplay happly hp hload
  | fork path header options _ hfork ih =>
    obtain ⟨ms, hreplay, -⟩ := ih
    unfold JsonlSession.fork at hfork
    split at hfork
    · cases hfork
    · rename_i s forked hforked
      have hs := consistent_fresh.replay hreplay
      unfold createForkMutations at hforked
      cases hselect : SessionState.forkSelection _ options with
      | error error =>
        rw [hselect] at hforked
        cases hforked
      | ok selection =>
        obtain ⟨copied, lanes⟩ := selection
        rw [hselect] at hforked
        obtain rfl := Except.ok.inj hforked
        obtain ⟨s', hreplay', -⟩ := replay_forkMutations hs (selected_of_forkSelection hs hselect)
        exact holds_of_load hreplay' hfork

/-- **Crash safety.** After every run, and whatever byte prefix of the line of the last
operation a crash leaves, `load` succeeds with the state before the operation, or with
the state after it if the whole JSON text is there, and the run can go on: as long as the
operation's number is a safe integer. -/
theorem load_crash {w : JsonlSession} (h : Reachable w) (op : StorageOp) {m : SessionMutation}
    (hm : op.mutation w.state = .ok m) (hsafe : w.state.nextSequence ≤ maxSafeInteger)
    {p : List UInt8} (hp : p <+: lineBytes m) (path : JsString) :
    ∃ w', load path (w.file ++ p) = .ok w' ∧ Reachable w' ∧
      (¬ encodeUtf8 m.text <+: p ∧ w'.state = w.state ∨
        encodeUtf8 m.text <+: p ∧ w.state.applyMutation m = .ok w'.state ∧
          (w.perform op).state = w'.state) := by
  obtain ⟨s', happly, hperform⟩ := h.holds.perform hm
  obtain ⟨ms, hreplay, hfile⟩ := h.holds
  rcases @load_cut path w.header ms w.state m s' hreplay happly hsafe p hp with
    ⟨htext, hload⟩ | ⟨htext, hload⟩
  · rw [← hfile] at hload
    exact ⟨_, hload, h.crash path hm hp hload, Or.inl ⟨htext, rfl⟩⟩
  · rw [← hfile] at hload
    refine ⟨_, hload, h.crash path hm hp hload, Or.inr ⟨htext, happly, ?_⟩⟩
    rw [hperform]

/-- A header with nothing but what it must have. -/
def bareHeader : JsonlV4Header :=
  ⟨js "s", ⟨0, Nat.zero_le _⟩, js "/work", none, none, none, Or.inl rfl⟩

/-- A new session, of which the name has been removed so many times. -/
def unnamed : Nat → JsonlSession
  | 0 => create bareHeader
  | n + 1 => (unnamed n).perform (.setName none)

theorem reachable_unnamed (n : Nat) : Reachable (unnamed n) := by
  induction n with
  | zero => exact .create bareHeader
  | succ n ih => exact ih.perform (.setName none)

theorem sequence_unnamed (n : Nat) : (unnamed n).state.sequence = n := by
  induction n with
  | zero => rfl
  | succ n ih =>
    have hm : (StorageOp.setName none).mutation (unnamed n).state
        = .ok (.name (unnamed n).state.nextSequence none) := rfl
    obtain ⟨s', happly, hperform⟩ := (reachable_unnamed n).holds.perform hm
    rw [unnamed, hperform]
    rw [(commit_log (applyMutation_ok happly).2.2).1]
    show (unnamed n).state.sequence + 1 = _
    rw [ih]

/-- An intact file, of `2^53` lines: the last number is not safe, and `load` fails. -/
theorem load_crash_tooLarge : ¬ ∀ (w : JsonlSession) (op : StorageOp) (m : SessionMutation)
    (p : List UInt8) (path : JsString), Reachable w → op.mutation w.state = .ok m →
    p <+: lineBytes m → ∃ w', load path (w.file ++ p) = .ok w' := by
  intro h
  obtain ⟨n, hn⟩ : ∃ n, n = maxSafeInteger := ⟨_, rfl⟩
  have hw := reachable_unnamed n
  have hm : (StorageOp.setName none).mutation (unnamed n).state
      = .ok (.name (unnamed n).state.nextSequence none) := rfl
  obtain ⟨w', hload⟩ := h _ _ _ _ (js "/s.jsonl") hw hm (List.prefix_refl _)
  obtain ⟨s', happly, -⟩ := hw.holds.perform hm
  obtain ⟨ms, hreplay, hfile⟩ := hw.holds
  rw [hfile, ← fileBytes_concat, ← List.append_nil (fileBytes _)] at hload
  have hsafe := safelyNumbered_of_load (replay_concat hreplay happly) List.not_mem_nil hload
  have hlast : (unnamed n).state.nextSequence ≤ maxSafeInteger :=
    (hsafe _ (List.mem_append_right ms (List.mem_singleton.mpr rfl))).2
  rw [nextSequence, sequence_unnamed, hn] at hlast
  exact Nat.not_succ_le_self _ hlast

/-- A crash in the middle of the first name. -/
theorem load_crash_name : ∃ w', load (js "/s.jsonl")
    ((create bareHeader).file ++ (lineBytes (.name 1 (some (js "a")))).take 9) = .ok w' ∧
      Reachable w' ∧ (¬ encodeUtf8 (SessionMutation.name 1 (some (js "a"))).text
          <+: (lineBytes (.name 1 (some (js "a")))).take 9 ∧ w'.state = (create bareHeader).state ∨
        encodeUtf8 (SessionMutation.name 1 (some (js "a"))).text
          <+: (lineBytes (.name 1 (some (js "a")))).take 9 ∧
          (create bareHeader).state.applyMutation (.name 1 (some (js "a"))) = .ok w'.state ∧
          ((create bareHeader).perform (.setName (some (js "a")))).state = w'.state) :=
  load_crash (.create bareHeader) (.setName (some (js "a"))) rfl (by decide)
    (List.take_prefix _ _) _

end JsonlSession

end PiMono.Harness
