import PiMono.Ai.ResponsesStream

/-!
# The items of Responses streams

`track` follows the items of a consistent sequence of events: what each has been given, and
whether it is done. What the stream does to the block of an item follows it (`Follows`): the block
of a done item is final, and the input of a custom tool call is streamed as JSON, however it is
cut.
-/

namespace PiMono.Ai.ResponsesStream

/-! ## What the events say -/

/-- An item: its first form, the text it has been given so far, the text of its `.done` event, and
its last form. -/
structure Tracked where
  index : Nat
  item : OutputItem
  text : JsString
  whole : Option JsString
  done : Option OutputItem
  deriving DecidableEq

/-- Arguments or input that an item has. -/
def OutputItem.given : OutputItem → JsString
  | .function_call _ _ _ _ arguments => arguments.getD []
  | .custom_tool_call _ _ _ _ input => input.getD []
  | _ => []

/-- The text of the last form, if it has one. -/
def OutputItem.last : OutputItem → Option JsString
  | .function_call _ _ _ _ arguments => if arguments.getD [] = [] then none else arguments
  | .custom_tool_call _ _ _ _ input => input
  | _ => none

def OutputItem.isReasoning : OutputItem → Bool
  | .reasoning _ _ => true
  | _ => false

def OutputItem.isMessage : OutputItem → Bool
  | .message _ => true
  | _ => false

def OutputItem.isFunctionCall : OutputItem → Bool
  | .function_call .. => true
  | _ => false

def OutputItem.isCustomToolCall : OutputItem → Bool
  | .custom_tool_call .. => true
  | _ => false

def OutputItem.sameType (item last : OutputItem) : Bool :=
  item.isReasoning && last.isReasoning || item.isMessage && last.isMessage
    || item.isFunctionCall && last.isFunctionCall
    || item.isCustomToolCall && last.isCustomToolCall

namespace Tracked

/-- The item as it is added. -/
def added (index : Nat) (item : OutputItem) : Tracked := ⟨index, item, item.given, none, none⟩

/-- The text that the item has now. -/
def partialText (t : Tracked) : JsString := t.whole.getD t.text

/-- A text of the item extends what it has been given, and is its whole text if that is known. -/
def Extends (t : Tracked) (text : JsString) : Prop :=
  match t.whole with
  | none => t.text <+: text
  | some whole => text = whole

instance (t : Tracked) (text : JsString) : Decidable (t.Extends text) := by
  unfold Extends
  split <;> infer_instance

/-- An open item of some type gets a delta. -/
def addDelta (isType : OutputItem → Bool) (delta : JsString) (t : Tracked) : Option Tracked :=
  if t.done = none ∧ t.whole = none ∧ isType t.item then some { t with text := t.text ++ delta }
  else none

/-- An open item of some type gets its whole text. -/
def setWhole (isType : OutputItem → Bool) (whole : JsString) (t : Tracked) : Option Tracked :=
  if t.done = none ∧ t.whole = none ∧ isType t.item ∧ t.text <+: whole then
    some { t with whole := some whole }
  else none

/-- An open item is done. -/
def finish (item : OutputItem) (t : Tracked) : Option Tracked :=
  if t.done = none ∧ t.item.sameType item ∧ ∀ text ∈ item.last, t.Extends text then
    some { t with done := some item }
  else none

end Tracked

/-- The item of an index, with its place. -/
def place (ts : List Tracked) (index : Nat) : Option (Nat × Tracked) :=
  (ts.findIdx? (·.index = index)).bind fun k => ts[k]?.map (k, ·)

/-- The item of an index is changed. -/
def trackItem (ts : List Tracked) (index : Nat) (f : Tracked → Option Tracked) :
    Option (List Tracked) :=
  match place ts index with
  | none => none
  | some (k, t) => (f t).map (ts.set k)

/-- A new item. -/
def trackAdded (ts : List Tracked) (index : Nat) (item : OutputItem) : Option (List Tracked) :=
  if item = .other then some ts
  else match place ts index with
    | none => some (ts ++ [.added index item])
    | some _ => none

/-- One event of a consistent sequence, in front of its end. -/
def track (ts : List Tracked) : ResponseEvent → Option (List Tracked)
  | .output_item_added index item => trackAdded ts index item
  | .reasoning_summary_text_delta index delta | .reasoning_text_delta index delta =>
    trackItem ts index (Tracked.addDelta OutputItem.isReasoning delta)
  | .reasoning_summary_part_done index =>
    trackItem ts index (Tracked.addDelta OutputItem.isReasoning (js "\n\n"))
  | .output_text_delta index delta | .refusal_delta index delta =>
    trackItem ts index (Tracked.addDelta OutputItem.isMessage delta)
  | .function_call_arguments_delta index delta =>
    trackItem ts index (Tracked.addDelta OutputItem.isFunctionCall delta)
  | .function_call_arguments_done index arguments =>
    trackItem ts index (Tracked.setWhole OutputItem.isFunctionCall arguments)
  | .custom_tool_call_input_delta index delta =>
    trackItem ts index (Tracked.addDelta OutputItem.isCustomToolCall delta)
  | .custom_tool_call_input_done index input =>
    trackItem ts index (Tracked.setWhole OutputItem.isCustomToolCall input)
  | .output_item_done index item => match item, place ts index with
    | .other, none => some ts
    | .other, some _ => none
    | item, some _ => trackItem ts index (Tracked.finish item)
    -- an item that was not added appears when it is done
    | item, none =>
      (trackAdded ts index item).bind fun ts => trackItem ts index (Tracked.finish item)
  | .other => some ts
  | _ => none

/-- A consistent sequence of events, and the items it leaves, all of them done. -/
structure Consistent (events : List ResponseEvent) (ts : List Tracked) : Prop where
  ends : ∃ before, events = before ++ [.completed] ∧ before.foldlM track [] = some ts
  done : ∀ t ∈ ts, t.done ≠ none

/-! ## What is assembled -/

/-- The delta of a tool call at a place. -/
def deltaAt (position : Nat) : MessageEvent → Option JsString
  | .toolcall_delta contentIndex delta => if contentIndex = position then some delta else none
  | _ => none

/-- The deltas of the tool call at a place, one behind the other. -/
def streamedAt (position : Nat) (pushed : List MessageEvent) : JsString :=
  (pushed.filterMap (deltaAt position)).flatten

theorem streamedAt_append (position : Nat) (pushed events : List MessageEvent) :
    streamedAt position (pushed ++ events)
      = streamedAt position pushed ++ streamedAt position events := by
  rw [streamedAt, List.filterMap_append, List.flatten_append]
  rfl

/-- Events for another place add nothing. -/
theorem streamedAt_of_ne {position : Nat} {events : List MessageEvent}
    (h : ∀ event ∈ events, event.contentIndex ≠ position) : streamedAt position events = [] := by
  have hnone : events.filterMap (deltaAt position) = [] := by
    refine List.filterMap_eq_nil_iff.mpr fun event hevent => ?_
    cases event with
    | toolcall_delta contentIndex delta => exact if_neg (h _ hevent)
    | _ => rfl
  rw [streamedAt, hnone]
  rfl

/-- What has been streamed of a custom tool call's input. -/
def Buffered (property : JsString) (buffer : JsonBuffer) (streamed : JsString) : Prop :=
  if buffer.closed then JsValue.parse streamed = some (inputArguments property buffer.input)
  else if buffer.started then WritesField property streamed buffer.input
  else streamed = [] ∧ buffer.input = []

/-- An input that extends what has been streamed is appended. -/
theorem buffered_append {property : JsString} {buffer : JsonBuffer} {streamed : JsString}
    (h : Buffered property buffer streamed) {nextInput : JsString} {close : Bool}
    (hextends : buffer.input <+: nextInput)
    (hclosed : buffer.closed = true → close = true ∧ nextInput = buffer.input) :
    ∃ buffer' delta,
      appendGrammarToolInputJsonDelta buffer property nextInput close = .ok (buffer', delta)
        ∧ Buffered property buffer' (streamed ++ delta.getD [])
        ∧ buffer'.closed = (buffer.closed || close) ∧ buffer'.input <+: nextInput
        ∧ (close = true → buffer'.input = nextInput) := by
  unfold appendGrammarToolInputJsonDelta
  cases hbuffer : buffer.closed with
  | true =>
    obtain ⟨hclose, hsame⟩ := hclosed hbuffer
    rw [if_pos rfl, if_pos ⟨hclose, hsame⟩]
    refine ⟨buffer, none, rfl, ?_, hbuffer, hextends, fun _ => hsame.symm⟩
    rw [Option.getD_none, List.append_nil]
    exact h
  | false =>
    rw [if_neg Bool.false_ne_true, if_neg (by simpa using hextends)]
    dsimp only
    split
    · rename_i hnothing
      have hopen : close = false := by simpa using hnothing.1
      refine ⟨buffer, none, rfl, ?_, ?_, hextends, fun hclose => ?_⟩
      · rw [Option.getD_none, List.append_nil]
        exact h
      · rw [hbuffer, hopen]
        rfl
      · rw [hopen] at hclose
        cases hclose
    · refine ⟨_, _, rfl, ?_, rfl, List.prefix_rfl, fun _ => rfl⟩
      have hopened : WritesField property
          (streamed ++ if buffer.started then [] else openField property) buffer.input := by
        unfold Buffered at h
        rw [hbuffer, if_neg Bool.false_ne_true] at h
        split at h
        · rename_i hstarted
          rw [if_pos hstarted, List.append_nil]
          exact h
        · rename_i hstarted
          rw [if_neg hstarted, h.1, h.2]
          exact writesField_open property
      have hwritten := hopened.piece (nextInput.drop buffer.input.length)
      obtain ⟨rest, hrest⟩ := hextends
      rw [← hrest, List.drop_left] at hwritten ⊢
      unfold Buffered
      rw [Option.getD_some]
      cases close with
      | true =>
        rw [if_pos rfl, if_pos rfl, ← List.append_assoc, ← List.append_assoc]
        exact hwritten.parse_close
      | false =>
        rw [if_neg Bool.false_ne_true, if_pos rfl, if_neg Bool.false_ne_true, List.append_nil,
          ← List.append_assoc]
        exact hwritten

section Blocks

variable (options : Options)

/-- `inputProperty` of a custom tool. -/
def inputProperty (name : JsString) : JsString :=
  (options.grammarToolInputProperties.get? name).getD (js "input")

namespace Tracked

/-- The text of a done item: that of its last form, or what it has been given. -/
def finalText (t : Tracked) : JsString := (t.done.bind OutputItem.last).getD t.partialText

/-- The namespace of the last form, or of the first. -/
def finalNameSpace (t : Tracked) : Option JsString :=
  let nameSpace : OutputItem → Option JsString
    | .function_call _ _ _ nameSpace _ | .custom_tool_call _ _ _ nameSpace _ => nameSpace
    | _ => none
  (t.done.bind nameSpace).or (nameSpace t.item)

/-- The thinking of a done item: its summary, its content, or what it has been given. -/
def finalThinking (t : Tracked) : JsString :=
  match t.done with
  | some (.reasoning summary content) =>
    if paragraphs summary ≠ [] then paragraphs summary
    else if paragraphs content ≠ [] then paragraphs content else t.partialText
  | _ => []

def finalMessage (t : Tracked) : JsString :=
  match t.done with
  | some (.message content) => content.flatten
  | _ => []

/-- The arguments of a done tool call. -/
def finalArguments (t : Tracked) : JsValue :=
  match t.item with
  | .custom_tool_call _ _ name _ _ => inputArguments (inputProperty options name) t.finalText
  | _ => parse options (if t.finalText ≠ [] then t.finalText else js "\x7b\x7d")

/-- The block of a done item. -/
def finalBlock (t : Tracked) : Block :=
  match t.item with
  | .reasoning _ _ => .thinking t.finalThinking
  | .message _ => .text t.finalMessage
  | .function_call call_id id name _ _ | .custom_tool_call call_id id name _ _ => .toolCall
      ⟨call_id ++ js "|" ++ id, name, t.finalNameSpace, t.finalArguments options, none, none⟩
  | .other => .text []

end Tracked

/-- The block of an open item, and what has been streamed of it. -/
def Open (item : OutputItem) (text : JsString) (whole : Bool) (block : Block)
    (streamed : JsString) : Prop :=
  match item with
  | .reasoning _ _ => block = .thinking text
  | .message _ => block = .text text
  | .function_call call_id id name nameSpace given => ∃ arguments,
    block = .toolCall ⟨call_id ++ js "|" ++ id, name, nameSpace, arguments, some text, none⟩
      ∧ given.getD [] ++ streamed = text
  | .custom_tool_call call_id id name nameSpace _ => ∃ buffer,
    block = .toolCall ⟨call_id ++ js "|" ++ id, name, nameSpace,
        inputArguments (inputProperty options name) text, none,
        some ⟨inputProperty options name, buffer⟩⟩
      ∧ Buffered (inputProperty options name) buffer streamed
      ∧ buffer.input <+: text ∧ buffer.closed = whole
      ∧ (buffer.closed = true → buffer.input = text)
  | .other => False

/-- What has been streamed of a done item. -/
def Tracked.Streamed (t : Tracked) (streamed : JsString) : Prop :=
  match t.item with
  | .function_call _ _ _ _ given => given.getD [] ++ streamed = t.partialText
  | .custom_tool_call _ _ _ _ _ => JsValue.parse streamed = some (t.finalArguments options)
  | _ => True

/-- The block of an item, and what has been streamed of it. -/
def Matches (t : Tracked) (block : Block) (streamed : JsString) : Prop :=
  match t.done with
  | none => Open options t.item t.partialText t.whole.isSome block streamed
  | some _ => block = t.finalBlock options ∧ t.Streamed options streamed

/-- What the code does to a block follows what is said of its item. -/
def Follows (f : Tracked → Option Tracked)
    (g : Nat → Block → Except JsString (Block × List MessageEvent)) : Prop :=
  ∀ position t t' block streamed, f t = some t' → Matches options t block streamed →
    ∃ block' events, g position block = .ok (block', events)
      ∧ Matches options t' block' (streamed ++ streamedAt position events)
      ∧ (∀ event ∈ events, event.contentIndex = position) ∧ t'.index = t.index
      ∧ t.done = none ∧ t'.done = none

variable {options}

theorem open_of_matches {t : Tracked} {block : Block} {streamed : JsString} (hdone : t.done = none)
    (h : Matches options t block streamed) :
    Open options t.item t.partialText t.whole.isSome block streamed := by
  rw [Matches, hdone] at h
  exact h

theorem matches_of_open {t : Tracked} {block : Block} {streamed : JsString} (hdone : t.done = none)
    (h : Open options t.item t.partialText t.whole.isSome block streamed) :
    Matches options t block streamed := by
  rw [Matches, hdone]
  exact h

theorem addDelta_spec {isType : OutputItem → Bool} {delta : JsString} {t t' : Tracked}
    (h : t.addDelta isType delta = some t') :
    t.done = none ∧ t.whole = none ∧ isType t.item = true
      ∧ t' = { t with text := t.text ++ delta } := by
  obtain ⟨⟨hdone, hwhole, htype⟩, heq⟩ := Option.ite_none_right_eq_some.mp h
  exact ⟨hdone, hwhole, htype, (Option.some.inj heq).symm⟩

theorem setWhole_spec {isType : OutputItem → Bool} {whole : JsString} {t t' : Tracked}
    (h : t.setWhole isType whole = some t') :
    t.done = none ∧ t.whole = none ∧ isType t.item = true ∧ t.text <+: whole
      ∧ t' = { t with whole := some whole } := by
  obtain ⟨⟨hdone, hwhole, htype, hextends⟩, heq⟩ := Option.ite_none_right_eq_some.mp h
  exact ⟨hdone, hwhole, htype, hextends, (Option.some.inj heq).symm⟩

theorem streamedAt_delta (position : Nat) (delta : JsString) :
    streamedAt position [.toolcall_delta position delta] = delta := by
  simp [streamedAt, deltaAt]

theorem follows_thinkingDelta (delta : JsString) :
    Follows options (Tracked.addDelta OutputItem.isReasoning delta) (thinkingDelta delta) := by
  intro position t t' block streamed hf hmatches
  obtain ⟨hdone, hwhole, htype, rfl⟩ := addDelta_spec hf
  have hopen := open_of_matches hdone hmatches
  obtain ⟨index, item, text, whole, done⟩ := t
  dsimp only at hdone hwhole htype hopen
  subst hdone hwhole
  cases item with
  | reasoning summary content =>
    obtain rfl : block = .thinking text := hopen
    refine ⟨_, _, rfl, matches_of_open rfl rfl, fun event hevent => ?_, rfl, rfl, rfl⟩
    rw [List.mem_singleton.mp hevent]
    rfl
  | _ => cases htype

theorem follows_textDelta (delta : JsString) :
    Follows options (Tracked.addDelta OutputItem.isMessage delta) (textDelta delta) := by
  intro position t t' block streamed hf hmatches
  obtain ⟨hdone, hwhole, htype, rfl⟩ := addDelta_spec hf
  have hopen := open_of_matches hdone hmatches
  obtain ⟨index, item, text, whole, done⟩ := t
  dsimp only at hdone hwhole htype hopen
  subst hdone hwhole
  cases item with
  | message content =>
    obtain rfl : block = .text text := hopen
    refine ⟨_, _, rfl, matches_of_open rfl rfl, fun event hevent => ?_, rfl, rfl, rfl⟩
    rw [List.mem_singleton.mp hevent]
    rfl
  | _ => cases htype

theorem follows_argumentsDelta (delta : JsString) :
    Follows options (Tracked.addDelta OutputItem.isFunctionCall delta)
      (argumentsDelta options delta) := by
  intro position t t' block streamed hf hmatches
  obtain ⟨hdone, hwhole, htype, rfl⟩ := addDelta_spec hf
  have hopen := open_of_matches hdone hmatches
  obtain ⟨index, item, text, whole, done⟩ := t
  dsimp only at hdone hwhole htype hopen
  subst hdone hwhole
  cases item with
  | function_call call_id id name nameSpace given =>
    obtain ⟨arguments, rfl, htext⟩ := hopen
    refine ⟨_, _, rfl, matches_of_open rfl ⟨_, rfl, ?_⟩, fun event hevent => ?_, rfl, rfl, rfl⟩
    · rw [streamedAt_delta, ← List.append_assoc, htext]
      rfl
    · rw [List.mem_singleton.mp hevent]
      rfl
  | _ => cases htype

theorem follows_argumentsDone (arguments : JsString) :
    Follows options (Tracked.setWhole OutputItem.isFunctionCall arguments)
      (argumentsDone options arguments) := by
  intro position t t' block streamed hf hmatches
  obtain ⟨hdone, hwhole, htype, hextends, rfl⟩ := setWhole_spec hf
  have hopen := open_of_matches hdone hmatches
  obtain ⟨index, item, text, whole, done⟩ := t
  dsimp only at hdone hwhole htype hopen hextends
  subst hdone hwhole
  cases item with
  | function_call call_id id name nameSpace given =>
    obtain ⟨before, rfl, htext⟩ := hopen
    obtain ⟨rest, rfl⟩ := hextends
    refine ⟨_, if text.isPrefixOf (text ++ rest) ∧ (text ++ rest).drop text.length ≠ [] then
        [.toolcall_delta position ((text ++ rest).drop text.length)] else [], rfl,
      matches_of_open rfl ⟨_, rfl, ?_⟩, fun event hevent => ?_, rfl, rfl, rfl⟩
    · rw [← List.append_assoc, htext]
      show text ++ streamedAt position _ = text ++ rest
      rw [List.drop_left]
      split
      · rw [streamedAt_delta]
      · rename_i hnothing
        have hrest : rest = [] := by
          by_contra hrest
          exact hnothing ⟨by simp, hrest⟩
        rw [hrest]
        rfl
    · split at hevent
      · rw [List.mem_singleton.mp hevent]
        rfl
      · cases hevent
  | _ => cases htype

theorem getCustomToolCallInput_inputArguments {block : StreamingToolCall} {property : JsString}
    {buffer : JsonBuffer} {text : JsString} (hinput : block.customInput = some ⟨property, buffer⟩)
    (harguments : block.arguments = inputArguments property text) :
    getCustomToolCallInput block = text := by
  have hfield : (inputArguments property text).get? property = some (.str text) := by
    rw [inputArguments, JsValue.get?_set rfl, if_pos rfl]
  rw [getCustomToolCallInput, hinput]
  dsimp only
  rw [harguments, JsValue.strField?, hfield]
  rfl

theorem streamedAt_toList (position : Nat) (delta : Option JsString) :
    streamedAt position (delta.toList.map (.toolcall_delta position)) = delta.getD [] := by
  cases delta with
  | none => rfl
  | some delta => exact streamedAt_delta position delta

theorem appendCustomToolCallInput_eq {block : StreamingToolCall} {property nextInput : JsString}
    {buffer buffer' : JsonBuffer} {close : Bool} {delta : Option JsString}
    (hinput : block.customInput = some ⟨property, buffer⟩)
    (happend : appendGrammarToolInputJsonDelta buffer property nextInput close
      = .ok (buffer', delta)) (position : Nat) :
    appendCustomToolCallInput position block nextInput close = .ok
      ({ block with
        arguments := inputArguments property nextInput
        customInput := some ⟨property, buffer'⟩ },
        delta.toList.map (.toolcall_delta position)) := by
  rw [appendCustomToolCallInput, hinput]
  dsimp only
  rw [happend]
  rfl

theorem customInput_eq {nextInput : StreamingToolCall → JsString} {close : Bool} {position : Nat}
    {toolCall toolCall' : StreamingToolCall} {events : List MessageEvent}
    (h : appendCustomToolCallInput position toolCall (nextInput toolCall) close
      = .ok (toolCall', events)) :
    customInput nextInput close position (.toolCall toolCall)
      = .ok (.toolCall toolCall', events) := by
  rw [customInput, h]
  rfl

theorem follows_customInput {nextInput : StreamingToolCall → JsString} {close : Bool}
    {f : Tracked → Option Tracked}
    (hf : ∀ t t', f t = some t' → t.done = none ∧ t.whole = none
      ∧ t.item.isCustomToolCall = true ∧ t.text <+: t'.partialText
      ∧ t' = { t with text := t'.text, whole := t'.whole } ∧ t'.whole.isSome = close
      ∧ ∀ toolCall, getCustomToolCallInput toolCall = t.text →
        nextInput toolCall = t'.partialText) :
    Follows options f (customInput nextInput close) := by
  intro position t t' block streamed hft hmatches
  obtain ⟨hdone, hwhole, htype, hextends, ht', hclose, hnext⟩ := hf t t' hft
  have hopen := open_of_matches hdone hmatches
  obtain ⟨index, item, text, whole, done⟩ := t
  dsimp only at hdone hwhole htype hopen hextends hnext ht'
  subst hdone hwhole
  cases item with
  | custom_tool_call call_id id name nameSpace given =>
    obtain ⟨buffer, rfl, hbuffered, hinput, hopened, -⟩ := hopen
    have hnotClosed : buffer.closed = false := hopened
    obtain ⟨buffer', delta, happend, hbuffered', hclosed', hinput', hwhole'⟩ :=
      @buffered_append _ _ _ hbuffered t'.partialText close (hinput.trans hextends)
        (fun hclosed => by rw [hnotClosed] at hclosed; cases hclosed)
    have hnow := hnext _ (@getCustomToolCallInput_inputArguments ⟨call_id ++ js "|" ++ id, name,
      nameSpace, inputArguments (inputProperty options name) text, none,
      some ⟨inputProperty options name, buffer⟩⟩ _ buffer text rfl rfl)
    rw [← hnow] at happend
    have hcall := @appendCustomToolCallInput_eq ⟨call_id ++ js "|" ++ id, name, nameSpace,
      inputArguments (inputProperty options name) text, none,
      some ⟨inputProperty options name, buffer⟩⟩ _ _ _ _ _ _ rfl happend position
    refine ⟨.toolCall ⟨call_id ++ js "|" ++ id, name, nameSpace,
      inputArguments (inputProperty options name) t'.partialText, none,
      some ⟨inputProperty options name, buffer'⟩⟩, delta.toList.map (.toolcall_delta position),
      ?_, ?_, fun event hevent => ?_, ?_, rfl, ?_⟩
    · refine (customInput_eq hcall).trans ?_
      rw [hnow]
    · rw [streamedAt_toList]
      refine matches_of_open (by rw [ht']) ?_
      rw [show t'.item = .custom_tool_call call_id id name nameSpace given by rw [ht']]
      refine ⟨buffer', rfl, hbuffered', hinput', ?_, fun hclosed => hwhole' ?_⟩
      · rw [hclosed', hnotClosed, hclose]
        rfl
      · rw [hclosed', hnotClosed] at hclosed
        exact hclosed
    · obtain ⟨_, -, rfl⟩ := List.mem_map.mp hevent
      rfl
    · rw [ht']
    · rw [ht']
  | _ => cases htype

theorem follows_inputDelta (delta : JsString) :
    Follows options (Tracked.addDelta OutputItem.isCustomToolCall delta)
      (customInput (getCustomToolCallInput · ++ delta) false) := by
  refine follows_customInput fun t t' hf => ?_
  obtain ⟨hdone, hwhole, htype, rfl⟩ := addDelta_spec hf
  have hnow : Tracked.partialText { t with text := t.text ++ delta } = t.text ++ delta := by
    rw [Tracked.partialText, hwhole]
    rfl
  rw [hnow]
  refine ⟨hdone, hwhole, htype, List.prefix_append _ _, rfl, by rw [hwhole]; rfl, ?_⟩
  intro toolCall hinput
  rw [hinput]

theorem follows_inputDone (input : JsString) :
    Follows options (Tracked.setWhole OutputItem.isCustomToolCall input)
      (customInput (fun _ => input) true) := by
  refine follows_customInput fun t t' hf => ?_
  obtain ⟨hdone, hwhole, htype, hextends, rfl⟩ := setWhole_spec hf
  exact ⟨hdone, hwhole, htype, hextends, rfl, rfl, fun _ _ => rfl⟩

theorem finish_spec {item : OutputItem} {t t' : Tracked} (h : t.finish item = some t') :
    t.done = none ∧ t.item.sameType item = true ∧ (∀ text ∈ item.last, t.Extends text)
      ∧ t' = { t with done := some item } := by
  obtain ⟨⟨hdone, htype, hextends⟩, heq⟩ := Option.ite_none_right_eq_some.mp h
  exact ⟨hdone, htype, hextends, (Option.some.inj heq).symm⟩

/-- An end event streams nothing. -/
theorem streamedAt_end (position : Nat) (events : List MessageEvent)
    (toolCall : StreamingToolCall) :
    streamedAt position (events ++ [.toolcall_end position toolCall])
      = streamedAt position events := by
  rw [streamedAt_append]
  exact List.append_nil _

theorem matches_of_done {t : Tracked} {item : OutputItem} {block : Block} {streamed : JsString}
    (hdone : t.done = some item) (hblock : block = t.finalBlock options)
    (hstreamed : t.Streamed options streamed) : Matches options t block streamed := by
  rw [Matches, hdone]
  exact ⟨hblock, hstreamed⟩

/-- The text of a function call that is done. -/
theorem finalText_function_call {t : Tracked} {call_id id name : JsString}
    {nameSpace arguments : Option JsString}
    (hdone : t.done = some (.function_call call_id id name nameSpace arguments)) :
    t.finalText = if arguments.getD [] ≠ [] then arguments.getD [] else t.partialText := by
  rw [Tracked.finalText, hdone, Option.bind_some, OutputItem.last]
  by_cases hnone : arguments.getD [] = []
  · rw [if_pos hnone, if_neg (not_not.mpr hnone)]
    rfl
  · rw [if_neg hnone, if_pos hnone]
    cases arguments with
    | none => exact absurd rfl hnone
    | some text => rfl

theorem finish_function_call {t : Tracked} {call_id id name : JsString}
    {nameSpace given : Option JsString} {item : OutputItem} {block : Block} {streamed : JsString}
    (hitem : t.item = .function_call call_id id name nameSpace given) (hdone : t.done = none)
    (htype : item.isFunctionCall = true) (hmatches : Matches options t block streamed)
    (position : Nat) :
    ∃ block' events, finishBlock options item position block = .ok (some (block', events))
      ∧ Matches options { t with done := some item } block'
        (streamed ++ streamedAt position events)
      ∧ ∀ event ∈ events, event.contentIndex = position := by
  have hopen := open_of_matches hdone hmatches
  obtain ⟨index, first, text, whole, done⟩ := t
  dsimp only at hitem hdone
  subst hitem hdone
  obtain ⟨before, rfl, htext⟩ := hopen
  cases item with
  | function_call call_id' id' name' nameSpace' arguments =>
    have hfinal := @finalText_function_call ⟨index, .function_call call_id id name nameSpace given,
      text, whole, some (.function_call call_id' id' name' nameSpace' arguments)⟩ _ _ _ _ _ rfl
    refine ⟨_, _, rfl, matches_of_done rfl ?_ ?_, fun event hevent => ?_⟩
    · show Block.toolCall ⟨_, _, _, parse options _, _, _⟩
        = .toolCall ⟨_, _, _, parse options (if Tracked.finalText _ ≠ [] then _ else _), _, _⟩
      rw [hfinal]
      by_cases hnone : arguments.getD [] = []
      · rw [if_neg (not_not.mpr hnone), if_neg (not_not.mpr hnone)]
        rfl
      · rw [if_pos hnone, if_pos hnone, if_pos hnone]
        rfl
    · exact (congrArg _ (List.append_nil _)).trans htext
    · rw [List.mem_singleton.mp hevent]
      rfl
  | _ => cases htype

theorem finishBlock_custom {toolCall toolCall' : StreamingToolCall} {custom : CustomInput}
    {call_id id name : JsString} {nameSpace input : Option JsString} {position : Nat}
    {events : List MessageEvent} (hinput : toolCall.customInput = some custom)
    (h : appendCustomToolCallInput position toolCall
      (input.getD (getCustomToolCallInput toolCall)) true = .ok (toolCall', events)) :
    finishBlock options (.custom_tool_call call_id id name nameSpace input) position
        (.toolCall toolCall)
      = .ok (some (.toolCall { toolCall' with
          nameSpace := nameSpace.or toolCall'.nameSpace, customInput := none },
        events ++ [.toolcall_end position { toolCall' with
          nameSpace := nameSpace.or toolCall'.nameSpace, customInput := none }])) := by
  simp only [finishBlock, hinput]
  rw [h]
  rfl

theorem finish_custom_tool_call {t : Tracked} {call_id id name : JsString}
    {nameSpace given : Option JsString} {item : OutputItem} {block : Block} {streamed : JsString}
    (hitem : t.item = .custom_tool_call call_id id name nameSpace given) (hdone : t.done = none)
    (htype : item.isCustomToolCall = true) (hextends : ∀ text ∈ item.last, t.Extends text)
    (hmatches : Matches options t block streamed) (position : Nat) :
    ∃ block' events, finishBlock options item position block = .ok (some (block', events))
      ∧ Matches options { t with done := some item } block'
        (streamed ++ streamedAt position events)
      ∧ ∀ event ∈ events, event.contentIndex = position := by
  have hopen := open_of_matches hdone hmatches
  obtain ⟨index, first, text, whole, done⟩ := t
  dsimp only at hitem hdone
  subst hitem hdone
  obtain ⟨buffer, rfl, hbuffered, hinput, hclosed, hwhole⟩ := hopen
  cases item with
  | custom_tool_call call_id' id' name' nameSpace' input =>
    have hnext : whole.getD text <+: input.getD (whole.getD text)
        ∧ (whole.isSome = true → input.getD (whole.getD text) = whole.getD text) := by
      cases input with
      | none => exact ⟨List.prefix_rfl, fun _ => rfl⟩
      | some last =>
        have hlast := hextends last rfl
        cases whole with
        | none => exact ⟨hlast, nofun⟩
        | some whole =>
          obtain rfl : last = whole := hlast
          exact ⟨List.prefix_rfl, fun _ => rfl⟩
    obtain ⟨buffer', delta, happend, hbuffered', hclosed', -, hwhole'⟩ :=
      @buffered_append _ _ _ hbuffered (input.getD (whole.getD text)) true (hinput.trans hnext.1)
        (fun hc => ⟨rfl, (hnext.2 (hclosed.symm.trans hc)).trans (hwhole hc).symm⟩)
    have hnow := @getCustomToolCallInput_inputArguments ⟨call_id ++ js "|" ++ id, name,
      nameSpace, inputArguments (inputProperty options name) (whole.getD text), none,
      some ⟨inputProperty options name, buffer⟩⟩ _ buffer (whole.getD text) rfl rfl
    rw [← hnow] at happend
    have hcall := @appendCustomToolCallInput_eq ⟨call_id ++ js "|" ++ id, name, nameSpace,
      inputArguments (inputProperty options name) (whole.getD text), none,
      some ⟨inputProperty options name, buffer⟩⟩ _ _ _ _ _ _ rfl happend position
    refine ⟨_, _, finishBlock_custom rfl hcall, matches_of_done rfl ?_ ?_, fun event hevent => ?_⟩
    · rw [hnow]
      rfl
    · rw [streamedAt_end, streamedAt_toList]
      rw [Buffered, hclosed', Bool.or_true, if_pos rfl, hwhole' rfl] at hbuffered'
      exact hbuffered'
    · rcases List.mem_append.mp hevent with hdelta | hend
      · obtain ⟨_, -, rfl⟩ := List.mem_map.mp hdelta
        rfl
      · rw [List.mem_singleton.mp hend]
        rfl
  | _ => cases htype

theorem follows_finish {item : OutputItem} {t t' : Tracked} (hf : t.finish item = some t')
    {block : Block} {streamed : JsString} (hmatches : Matches options t block streamed)
    (position : Nat) :
    ∃ block' events, finishBlock options item position block = .ok (some (block', events))
      ∧ Matches options t' block' (streamed ++ streamedAt position events)
      ∧ ∀ event ∈ events, event.contentIndex = position := by
  obtain ⟨hdone, htype, hextends, rfl⟩ := finish_spec hf
  have hopen := open_of_matches hdone hmatches
  obtain ⟨index, first, text, whole, done⟩ := t
  dsimp only at hdone htype hextends
  subst hdone
  cases first with
  | reasoning summary content =>
    obtain rfl : block = .thinking _ := hopen
    cases item with
    | reasoning summary' content' =>
      refine ⟨_, _, rfl, matches_of_done rfl rfl trivial, fun event hevent => ?_⟩
      rw [List.mem_singleton.mp hevent]
      rfl
    | _ => cases htype
  | message content =>
    obtain rfl : block = .text _ := hopen
    cases item with
    | message content' =>
      refine ⟨_, _, rfl, matches_of_done rfl rfl trivial, fun event hevent => ?_⟩
      rw [List.mem_singleton.mp hevent]
      rfl
    | _ => cases htype
  | function_call call_id id name nameSpace given =>
    refine finish_function_call rfl rfl ?_ hmatches position
    simpa [OutputItem.sameType, OutputItem.isReasoning, OutputItem.isMessage,
      OutputItem.isFunctionCall, OutputItem.isCustomToolCall] using htype
  | custom_tool_call call_id id name nameSpace given =>
    refine finish_custom_tool_call rfl rfl ?_ hextends hmatches position
    simpa [OutputItem.sameType, OutputItem.isReasoning, OutputItem.isMessage,
      OutputItem.isFunctionCall, OutputItem.isCustomToolCall] using htype
  | other => exact hopen.elim

end Blocks

end PiMono.Ai.ResponsesStream
