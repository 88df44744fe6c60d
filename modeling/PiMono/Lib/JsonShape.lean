import PiMono.Lib.JsonRoundTrip

/-!
# The shape of a JSON text

What the machine accepts does not depend on what strings, arrays and objects hold: states of one
shape step to states of one shape (`JsonState.shape_step`), so they accept the same texts
(`JsonState.Accepts.alike`). And the first character of a text tells whether it is an array or an
object (`Json.isObject_of_parse`): every step keeps what the root is.
-/

namespace PiMono

/-! ## States without their contents -/

/-- A frame without what it holds. -/
def JsonFrame.shape : JsonFrame → JsonFrame
  | .item _ => .item []
  | .field _ _ => .field [] []

/-- What a string is read for. -/
def StringRole.shape : StringRole → StringRole
  | .value => .value
  | .key _ => .key []

/-- How far a string is read; of an escape only the digits that are missing count. -/
def StringPhase.shape : StringPhase → StringPhase
  | .plain => .plain
  | .escape => .escape
  | .hex missing _ => .hex missing 0

/-- A mode without what has been read; the number is kept, since it decides what may follow. -/
def JsonMode.shape : JsonMode → JsonMode
  | .value => .value
  | .firstItem => .firstItem
  | .afterItem _ => .afterItem []
  | .firstKey => .firstKey
  | .nextKey _ => .nextKey []
  | .colon _ _ => .colon [] []
  | .afterField _ => .afterField []
  | .string role _ phase => .string role.shape [] phase.shape
  | .number a => .number a
  | .literal rest _ => .literal rest .null
  | .done _ => .done .null

namespace JsonState

/-- A state without what has been read. -/
def shape (s : JsonState) : JsonState := ⟨s.mode.shape, s.stack.map JsonFrame.shape⟩

/-- Two states may go on alike. -/
def Alike (s t : JsonState) : Prop := s.shape = t.shape

/-- Delivering a value does not look at it. -/
theorem shape_deliver (v w : Json) {stack stack' : List JsonFrame}
    (h : stack.map JsonFrame.shape = stack'.map JsonFrame.shape) :
    (deliver v stack).shape = (deliver w stack').shape := by
  match stack, stack', h with
  | [], [], _ => rfl
  | .item _ :: stack, .item _ :: stack', h | .field _ _ :: stack, .field _ _ :: stack', h =>
    have htail := (List.cons.inj h).2
    simp only [deliver, shape, JsonMode.shape, htail]

/-- Neither does the end of a string. -/
theorem shape_closeString (s s' : JsString) {stack stack' : List JsonFrame}
    {role role' : StringRole}
    (hstack : stack.map JsonFrame.shape = stack'.map JsonFrame.shape)
    (hrole : role.shape = role'.shape) :
    (closeString stack s role).shape = (closeString stack' s' role').shape := by
  match role, role', hrole with
  | .value, .value, _ => exact shape_deliver _ _ hstack
  | .key _, .key _, _ => simp only [closeString, shape, JsonMode.shape, hstack]

/-- The first character of a value. -/
theorem shape_startValue (u : UInt16) {stack stack' : List JsonFrame}
    (h : stack.map JsonFrame.shape = stack'.map JsonFrame.shape) :
    (startValue stack u).map shape = (startValue stack' u).map shape := by
  simp only [startValue]
  repeat' split
  all_goals try simp only [Option.map_some, shape, h]
  cases NumAcc.first u with
  | none => rfl
  | some a => simp only [Option.map_some, shape, h]

/-- A character of a string. -/
theorem shape_stepString (u : UInt16) (acc acc' : JsString) {stack stack' : List JsonFrame}
    {role role' : StringRole} {phase phase' : StringPhase}
    (hstack : stack.map JsonFrame.shape = stack'.map JsonFrame.shape)
    (hrole : role.shape = role'.shape) (hphase : phase.shape = phase'.shape) :
    (stepString stack role acc u phase).map shape =
      (stepString stack' role' acc' u phase').map shape := by
  have hstring : ∀ (acc acc' : JsString) {phase phase' : StringPhase}, phase.shape = phase'.shape →
      shape ⟨.string role acc phase, stack⟩ = shape ⟨.string role' acc' phase', stack'⟩ := by
    intro acc acc' phase phase' h
    simp only [shape, JsonMode.shape, hstack, hrole, h]
  match phase, phase', hphase with
  | .plain, .plain, _ =>
    simp only [stepString]
    split
    · exact congrArg some (shape_closeString _ _ hstack hrole)
    split
    · exact congrArg some (hstring _ _ rfl)
    split
    · rfl
    · exact congrArg some (hstring _ _ rfl)
  | .escape, .escape, _ =>
    simp only [stepString]
    split
    · exact congrArg some (hstring _ _ rfl)
    · cases escaped? u with
      | none => rfl
      | some v => exact congrArg some (hstring _ _ rfl)
  | .hex missing value, .hex missing' value', h =>
    obtain rfl : missing = missing' := (StringPhase.hex.inj h).1
    simp only [stepString]
    cases hexValue? u with
    | none => rfl
    | some d =>
      cases missing with
      | zero => exact congrArg some (hstring _ _ rfl)
      | succ missing => exact congrArg some (hstring _ _ rfl)

theorem shape_stepMode (u : UInt16) {s t : JsonState} (h : s.Alike t) :
    (s.stepMode u).map shape = (t.stepMode u).map shape := by
  obtain ⟨mode, stack⟩ := s
  obtain ⟨mode', stack'⟩ := t
  have hmode : mode.shape = mode'.shape := congrArg JsonState.mode h
  have hstack : stack.map JsonFrame.shape = stack'.map JsonFrame.shape :=
    congrArg JsonState.stack h
  match mode, mode', hmode with
  | .string role acc phase, .string role' acc' phase', hmode =>
    obtain ⟨hrole, -, hphase⟩ := JsonMode.string.inj hmode
    exact shape_stepString u acc acc' hstack hrole hphase
  | .literal rest v, .literal rest' v', hmode =>
    obtain rfl : rest = rest' := (JsonMode.literal.inj hmode).1
    match rest with
    | [] => rfl
    | [c] =>
      simp only [stepMode]
      split
      · exact congrArg some (shape_deliver _ _ hstack)
      · rfl
    | c :: d :: rest =>
      simp only [stepMode]
      split
      · simp only [Option.map_some, shape, JsonMode.shape, hstack]
      · rfl
  | .number a, .number a', _ => rfl
  | .value, .value, _ =>
    simp only [stepMode]
    split
    · exact congrArg some h
    · exact shape_startValue u hstack
  | .firstItem, .firstItem, _ =>
    simp only [stepMode]
    split
    · exact congrArg some h
    split
    · exact congrArg some (shape_deliver _ _ hstack)
    · exact shape_startValue u (by simp only [List.map_cons, hstack])
  | .afterItem items, .afterItem items', _ =>
    simp only [stepMode]
    split
    · exact congrArg some h
    split
    · simp only [Option.map_some, shape, JsonMode.shape, List.map_cons, JsonFrame.shape, hstack]
    split
    · exact congrArg some (shape_deliver _ _ hstack)
    · rfl
  | .firstKey, .firstKey, _ =>
    simp only [stepMode]
    split
    · exact congrArg some h
    split
    · simp only [Option.map_some, shape, hstack]
    split
    · exact congrArg some (shape_deliver _ _ hstack)
    · rfl
  | .nextKey fields, .nextKey fields', _ =>
    simp only [stepMode]
    split
    · exact congrArg some h
    split
    · simp only [Option.map_some, shape, JsonMode.shape, StringRole.shape, hstack]
    · rfl
  | .colon fields key, .colon fields' key', _ =>
    simp only [stepMode]
    split
    · exact congrArg some h
    split
    · simp only [Option.map_some, shape, JsonMode.shape, List.map_cons, JsonFrame.shape, hstack]
    · rfl
  | .afterField fields, .afterField fields', _ =>
    simp only [stepMode]
    split
    · exact congrArg some h
    split
    · simp only [Option.map_some, shape, JsonMode.shape, hstack]
    split
    · exact congrArg some (shape_deliver _ _ hstack)
    · rfl
  | .done v, .done v', _ =>
    simp only [stepMode]
    split
    · exact congrArg some h
    · rfl

/-- A step depends on the shape only. -/
theorem shape_step (u : UInt16) {s t : JsonState} (h : s.Alike t) :
    (s.step u).map shape = (t.step u).map shape := by
  obtain ⟨mode, stack⟩ := s
  obtain ⟨mode', stack'⟩ := t
  have hmode : mode.shape = mode'.shape := congrArg JsonState.mode h
  have hstack : stack.map JsonFrame.shape = stack'.map JsonFrame.shape :=
    congrArg JsonState.stack h
  match mode, mode', hmode with
  | .number a, .number a', hmode =>
    obtain rfl : a = a' := JsonMode.number.inj hmode
    simp only [step]
    cases a.step u with
    | some a' => simp only [Option.map_some, shape, hstack]
    | none =>
      dsimp only
      split
      · exact shape_stepMode u (shape_deliver _ _ hstack)
      · rfl
  | .value, .value, _ | .firstItem, .firstItem, _ | .afterItem _, .afterItem _, _
  | .firstKey, .firstKey, _ | .nextKey _, .nextKey _, _ | .colon _ _, .colon _ _, _
  | .afterField _, .afterField _, _ | .string _ _ _, .string _ _ _, _
  | .literal _ _, .literal _ _, _ | .done _, .done _, _ => exact shape_stepMode u h

/-- A text leads on from both states, or from neither. -/
theorem shape_run (us : JsString) : ∀ {s t : JsonState}, s.Alike t →
    (s.run us).map shape = (t.run us).map shape := by
  induction us with
  | nil => exact fun h => congrArg some h
  | cons u us ih =>
    intro s t h
    have hstep := shape_step u h
    rw [run_cons, run_cons]
    cases hs : s.step u with
    | none =>
      rw [hs, Option.map_none, eq_comm, Option.map_eq_none_iff] at hstep
      rw [hstep]
    | some s' =>
      rw [hs, Option.map_some, eq_comm, Option.map_eq_some_iff] at hstep
      obtain ⟨t', ht, halike⟩ := hstep
      rw [ht]
      exact ih halike.symm

/-- So does whether a text may end. -/
theorem finish_alike {s t : JsonState} (h : s.Alike t) : s.finish.isSome = t.finish.isSome := by
  obtain ⟨mode, stack⟩ := s
  obtain ⟨mode', stack'⟩ := t
  have hmode : mode.shape = mode'.shape := congrArg JsonState.mode h
  have hstack : stack.map JsonFrame.shape = stack'.map JsonFrame.shape :=
    congrArg JsonState.stack h
  cases stack with
  | nil =>
    obtain rfl : stack' = [] := List.map_eq_nil_iff.mp hstack.symm
    -- only a number that ends the text leaves a value
    cases mode <;> cases mode' <;> first | rfl | cases hmode <;> rfl
  | cons frame stack =>
    cases stack' with
    | nil => cases hstack
    | cons frame' stack' => cases mode <;> cases mode' <;> rfl

/-- The text may end the text read so far. -/
def Accepts (s : JsonState) (us : JsString) : Prop := ∃ t v, s.run us = some t ∧ t.finish = some v

/-- A text is accepted through the state behind its first part. -/
theorem accepts_append {s : JsonState} {us vs : JsString} :
    s.Accepts (us ++ vs) ↔ ∃ t, s.run us = some t ∧ t.Accepts vs := by
  constructor
  · rintro ⟨t, v, hrun, hfinish⟩
    rw [run_append] at hrun
    obtain ⟨between, hus, hvs⟩ := Option.bind_eq_some_iff.mp hrun
    exact ⟨between, hus, t, v, hvs, hfinish⟩
  · rintro ⟨between, hus, t, v, hvs, hfinish⟩
    exact ⟨t, v, by rw [run_append, hus, Option.bind_some, hvs], hfinish⟩

/-- What is accepted depends on the shape only. -/
theorem Accepts.alike {s t : JsonState} {us : JsString} (h : s.Accepts us) (halike : s.Alike t) :
    t.Accepts us := by
  obtain ⟨s', v, hrun, hfinish⟩ := h
  have hshape := shape_run us halike
  rw [hrun, Option.map_some, eq_comm, Option.map_eq_some_iff] at hshape
  obtain ⟨t', ht, halike'⟩ := hshape
  have hsome := finish_alike (s := s') (t := t') halike'.symm
  rw [hfinish, Option.isSome_some, eq_comm, Option.isSome_iff_exists] at hsome
  obtain ⟨w, hw⟩ := hsome
  exact ⟨t', w, ht, hw⟩

end JsonState

/-- The texts that are parsed are the accepted ones. -/
theorem Json.parse_eq_some_iff {text : JsString} :
    (∃ v, Json.parse text = some v) ↔ JsonState.init.Accepts text := by
  simp only [Json.parse, Option.bind_eq_some_iff, JsonState.Accepts]
  constructor
  · rintro ⟨v, t, hrun, hfinish⟩
    exact ⟨t, v, hrun, hfinish⟩
  · rintro ⟨t, v, hrun, hfinish⟩
    exact ⟨v, t, hrun, hfinish⟩

/-! ## The kind of the root -/

/-- `typeof v === "object"`, and not `null`. -/
def Json.isObject : Json → Bool
  | .arr _ | .obj _ => true
  | _ => false

/-- The first character that is no white space opens an object or an array. -/
def opensObject (text : JsString) : Bool :=
  match text.dropWhile isTrimmed with
  | [] => false
  | char :: _ => char == 0x7B || char == 0x5B

namespace JsonState

/-- The root is known to be an array or an object, or known to be none. -/
def RootIs (isObject : Bool) (s : JsonState) : Prop :=
  match s.stack, s.mode with
  | _ :: _, _ => isObject = true
  | [], .value => False
  | [], .string .value _ _ => isObject = false
  | [], .number _ => isObject = false
  | [], .literal _ v => isObject = false ∧ v.isObject = false
  | [], .done v => isObject = v.isObject
  | [], _ => isObject = true

theorem rootIs_deliver {isObject : Bool} {v : Json} {stack : List JsonFrame}
    (hroot : stack = [] → isObject = v.isObject) (hframe : stack ≠ [] → isObject = true) :
    RootIs isObject (deliver v stack) := by
  match stack with
  | [] => exact hroot rfl
  | .item _ :: [] | .field _ _ :: [] => exact hframe (List.cons_ne_nil _ _)
  | .item _ :: _ :: _ | .field _ _ :: _ :: _ => exact hframe (List.cons_ne_nil _ _)

theorem rootIs_moves {isObject : Bool} {u : UInt16} {s s' : JsonState} (hs : Moves u s s')
    (h : RootIs isObject s) : RootIs isObject s' := by
  have hframe : ∀ {mode : JsonMode} {stack : List JsonFrame}, RootIs isObject ⟨mode, stack⟩ →
      stack ≠ [] → isObject = true := by
    rintro mode (_ | ⟨frame, stack⟩) h hne
    · exact absurd rfl hne
    · exact h
  have hpush : ∀ {mode : JsonMode} {stack : List JsonFrame}, (RootIs isObject ⟨mode, []⟩ →
      isObject = true) → RootIs isObject ⟨mode, stack⟩ → isObject = true := by
    rintro mode (_ | ⟨frame, stack⟩) hroot h
    · exact hroot h
    · exact h
  induction hs with
  | skip => exact h
  | @quote stack _ | @openArr stack _ | @openObj stack _ | @digit stack _ _
  | @name stack _ _ _ _ _ =>
    match stack, h with
    | _ :: _, h => exact h
  | firstItem _ _ _ ih => exact ih (hpush id h)
  | emptyArr | closeArr | emptyObj | closeObj =>
    exact rootIs_deliver (fun hnil => by subst hnil; exact h) (hframe h)
  | nextItem | colon => exact hpush id h
  | @firstKey stack _ | @nextKey stack _ _ | @nextField stack _ _ =>
    match stack, h with
    | [], h => exact h
    | _ :: _, h => exact h
  | @inString stack role _ _ _ _ =>
    match stack, role, h with
    | [], .value, h => exact h
    | [], .key _, h => exact h
    | _ :: _, _, h => exact h
  | @closeString stack role _ _ =>
    match stack, role, h with
    | [], .value, h => exact h
    | [], .key _, h => exact h
    | .item _ :: stack, .value, h | .field _ _ :: stack, .value, h =>
      exact rootIs_deliver nofun (fun _ => h)
    | _ :: _, .key _, h => exact h
  | @inName stack _ _ _ =>
    match stack, h with
    | [], h => exact h
    | _ :: _, h => exact h
  | @closeName stack v =>
    exact rootIs_deliver (fun hnil => by subst hnil; exact h.1.trans h.2.symm) (hframe h)

/-- A step keeps what the root is. -/
theorem rootIs_step {isObject : Bool} {u : UInt16} {s s' : JsonState} (hs : s.step u = some s')
    (h : RootIs isObject s) : RootIs isObject s' := by
  obtain ⟨mode, stack⟩ := s
  unfold step at hs
  split at hs
  · rename_i a hmode
    obtain rfl : mode = .number a := hmode
    have hdeliver : RootIs isObject (deliver (.num a.value) stack) := by
      match stack, h with
      | [], h => exact h
      | frame :: stack, h => exact rootIs_deliver nofun (fun _ => h)
    split at hs
    · cases hs
      match stack, h with
      | [], h => exact h
      | _ :: _, h => exact h
    split at hs
    · exact rootIs_moves (moves_stepMode hs) hdeliver
    · cases hs
  · exact rootIs_moves (moves_stepMode hs) h

/-- So does a text. -/
theorem rootIs_run {isObject : Bool} {us : JsString} : ∀ {s s' : JsonState},
    s.run us = some s' → RootIs isObject s → RootIs isObject s' := by
  induction us with
  | nil =>
    intro s s' hs h
    cases hs
    exact h
  | cons u us ih =>
    intro s s' hs h
    obtain ⟨t, ht, hrest⟩ := Option.bind_eq_some_iff.mp hs
    exact ih hrest (rootIs_step ht h)

theorem not_trimmed_of_first {u : UInt16} {a : NumAcc} (h : NumAcc.first u = some a) :
    isTrimmed u = false := by
  unfold NumAcc.first at h
  split at h
  · subst u
    decide
  · obtain ⟨d, hd, -⟩ := Option.map_eq_some_iff.mp h
    unfold unitDigit? at hd
    split at hd
    · rename_i hrange
      simp only [isTrimmed, Bool.or_eq_false_iff, Bool.and_eq_false_iff, beq_eq_false_iff_ne, ne_eq,
        decide_eq_false_iff_not, UInt16.le_iff_toNat_le, ← UInt16.toNat_inj]
      simp
      omega
    · cases hd

/-- The first character of a value. -/
theorem rootIs_startValue {u : UInt16} {s : JsonState} (hs : startValue [] u = some s) :
    RootIs (u == 0x7B || u == 0x5B) s ∧ isTrimmed u = false := by
  simp only [startValue] at hs
  split at hs
  · cases hs; subst u; exact ⟨rfl, by decide⟩
  split at hs
  · cases hs; subst u; exact ⟨rfl, by decide⟩
  split at hs
  · cases hs; subst u; exact ⟨rfl, by decide⟩
  split at hs
  · cases hs; subst u; exact ⟨⟨rfl, rfl⟩, by decide⟩
  split at hs
  · cases hs; subst u; exact ⟨⟨rfl, rfl⟩, by decide⟩
  split at hs
  · cases hs; subst u; exact ⟨⟨rfl, rfl⟩, by decide⟩
  · rename_i hbracket hbrace _ _ _
    obtain ⟨a, ha, rfl⟩ := Option.map_eq_some_iff.mp hs
    exact ⟨by simp [RootIs, hbracket, hbrace], not_trimmed_of_first ha⟩

theorem isTrimmed_of_space {u : UInt16} (h : isJsonSpace u = true) : isTrimmed u = true := by
  simp only [isJsonSpace, Bool.or_eq_true, beq_iff_eq] at h
  rcases h with ((rfl | rfl) | rfl) | rfl <;> decide

/-- What the root is when the text ends is the value that is read. -/
theorem isObject_of_finish {isObject : Bool} {s : JsonState} {v : Json} (h : RootIs isObject s)
    (hfinish : s.finish = some v) : v.isObject = isObject := by
  obtain ⟨mode, stack⟩ := s
  unfold finish at hfinish
  split at hfinish
  · rename_i w hmode hstack
    obtain rfl : mode = _ := hmode
    obtain rfl : stack = _ := hstack
    cases hfinish
    exact h.symm
  · rename_i a hmode hstack
    obtain rfl : mode = _ := hmode
    obtain rfl : stack = _ := hstack
    split at hfinish
    · cases hfinish
      exact h.symm
    · cases hfinish
  · cases hfinish

/-- The first character tells the kind of the root. -/
theorem isObject_of_run {us : JsString} {s : JsonState} {v : Json}
    (hrun : run init us = some s) (hfinish : s.finish = some v) :
    v.isObject = opensObject us := by
  induction us with
  | nil =>
    cases hrun
    cases hfinish
  | cons u us ih =>
    obtain ⟨t, ht, hrest⟩ := Option.bind_eq_some_iff.mp hrun
    cases hspace : isJsonSpace u with
    | true =>
      have hskip : init.step u = some init := by simp [step, stepMode, init, hspace]
      rw [hskip] at ht
      cases ht
      rw [ih hrest, opensObject, opensObject, List.dropWhile_cons,
        if_pos (isTrimmed_of_space hspace)]
    | false =>
      have hstart : init.step u = startValue [] u := by simp [step, stepMode, init, hspace]
      rw [hstart] at ht
      obtain ⟨hroot, htrimmed⟩ := rootIs_startValue ht
      rw [isObject_of_finish (rootIs_run hrest hroot) hfinish, opensObject, List.dropWhile_cons,
        htrimmed]
      rfl

end JsonState

/-- A text that reads as an array or an object begins with its bracket, and no other does. -/
theorem Json.isObject_of_parse {text : JsString} {v : Json} (h : Json.parse text = some v) :
    v.isObject = opensObject text := by
  obtain ⟨s, hrun, hfinish⟩ := Option.bind_eq_some_iff.mp h
  exact JsonState.isObject_of_run hrun hfinish

end PiMono
