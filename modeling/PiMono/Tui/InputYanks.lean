import PiMono.Tui.Input

/-!
# What a yank-pop replaces

Over every sequence of operations the cursor stays in the field, and a yank-pop replaces what the
yank or yank-pop before it has put there (`cursor_and_yankPop`), unless the owner sets another
value between the two.
-/

namespace PiMono.Tui.Input

section Yanks

variable {graphemes : JsString → List JsString} {wordSegments : JsString → List WordSegment}

/-- The field is this, with the cursor behind `text`. -/
structure Shows (s : Input) (before text behind : JsString) : Prop where
  value : s.value = before ++ text ++ behind
  cursor : s.cursor = (before ++ text).length

/-- The owner keeps the value between a yank and its yank-pop. -/
def Keeps (s : Input) : Event → Prop
  | .setValue value => s.Pops → value = s.value
  | _ => True

/-- What a yank inserts, it inserts at the cursor. -/
theorem yank_shows {s : Input} (h : Inv s) {text : JsString} (hne : text ≠ [])
    (hpeek : KillRing.peek s.killRing = some text) :
    ∃ before behind, s.value = before ++ behind ∧ s.cursor = before.length ∧
      s.yank.Shows before text behind ∧ KillRing.peek s.yank.killRing = some text := by
  obtain ⟨n, hcursor, hn⟩ := h.cursor
  have hsplit := (List.take_append_drop n s.value).symm
  have hbefore : s.pushUndo.cursor = (s.value.take n).length := by
    rw [List.length_take, Nat.min_eq_left hn]
    exact hcursor
  obtain ⟨hvalue, hcursor'⟩ := @insertText_eq s.pushUndo _ _ text hsplit hbefore
  refine ⟨s.value.take n, s.value.drop n, hsplit, hbefore, ?_⟩
  cases text with
  | nil => exact absurd rfl hne
  | cons u us =>
    unfold Input.yank
    rw [hpeek]
    exact ⟨⟨hvalue, hcursor'⟩, hpeek⟩

/-- A yank-pop puts the next entry in the place of the last one. -/
theorem yankPop_shows {s : Input} {before text behind : JsString} (hpops : s.Pops)
    (hshows : s.Shows before text behind) (hpeek : KillRing.peek s.killRing = some text) :
    ∃ next, s.yankPop.Shows before next behind ∧
      KillRing.peek s.yankPop.killRing = some next := by
  have hring : KillRing.rotate s.killRing ≠ [] := by
    intro hnil
    have hlen := congrArg List.length hnil
    have hlt := hpops.2
    rw [KillRing.rotate, if_pos hlt, List.length_append, List.length_dropLast] at hlen
    simp only [List.length_nil] at hlen
    omega
  obtain ⟨next, hnext⟩ : ∃ next, KillRing.peek (KillRing.rotate s.killRing) = some next :=
    Option.ne_none_iff_exists'.mp fun hnone => hring (List.getLast?_eq_none_iff.mp hnone)
  have hstart : s.cursor - text.length = (before.length : Int) := by
    rw [hshows.cursor, List.length_append]
    omega
  unfold Input.yankPop
  rw [if_pos hpops]
  dsimp only [Input.pushUndo]
  rw [hpeek, hnext]
  dsimp only [Option.getD_some]
  refine ⟨next, ?_, hnext⟩
  have hinsert := @insertText_eq
    { s with
      value := slice s.value 0 (s.cursor - text.length) ++ sliceFrom s.value s.cursor
      cursor := s.cursor - text.length
      killRing := KillRing.rotate s.killRing
      undoStack := ⟨s.value, s.cursor⟩ :: s.undoStack } before behind next
    (by
      show slice s.value 0 (s.cursor - text.length) ++ sliceFrom s.value s.cursor = before ++ behind
      rw [hstart, hshows.cursor, slice_zero, sliceFrom_natCast, hshows.value,
        List.append_assoc before, List.take_left, ← List.append_assoc, List.drop_left])
    hstart
  exact ⟨hinsert.1, hinsert.2⟩

/-- Nothing of this matters for a yank-pop to come. -/
structure Untouched (s s' : Input) : Prop where
  value : s'.value = s.value
  cursor : s'.cursor = s.cursor
  killRing : s'.killRing = s.killRing
  lastAction : s'.lastAction = s.lastAction

theorem untouched_refl (s : Input) : Untouched s s := ⟨rfl, rfl, rfl, rfl⟩

theorem not_pops {s : Input} (h : s.lastAction ≠ some .yank) : ¬ s.Pops := fun hpops => h hpops.1

/-- An operation that does nothing where its guard holds, and no yank elsewhere. -/
theorem untouched_of_ite {s t other : Input} {p : Prop} [Decidable p]
    (ht : t = if p then s else other) (hother : other.lastAction ≠ some .yank) (hpops : t.Pops) :
    Untouched s t := by
  split at ht
  · rw [ht]
    exact untouched_refl s
  · rw [ht] at hpops
    exact absurd hpops (not_pops hother)

/-- Behind a key a yank-pop does something only where the key is a yank or a yank-pop, or has done
nothing. -/
theorem pops_press {s : Input} {key : InputKey}
    (hpops : (s.press graphemes wordSegments key).Pops) :
    (key = .yank ∧ ∃ text, text ≠ [] ∧ KillRing.peek s.killRing = some text) ∨
      (key = .yankPop ∧ s.Pops) ∨ Untouched s (s.press graphemes wordSegments key) := by
  cases key with
  | cancel => exact Or.inr (Or.inr (untouched_refl s))
  | submit => exact Or.inr (Or.inr (untouched_refl s))
  | undo =>
    have hundo : s.press graphemes wordSegments .undo = s.undo := rfl
    rw [hundo] at hpops ⊢
    unfold Input.undo at hpops ⊢
    cases hstack : s.undoStack with
    | nil => exact Or.inr (Or.inr (untouched_refl s))
    | cons snapshot rest =>
      rw [hstack] at hpops
      exact absurd hpops (not_pops (fun h => by cases h))
  | deleteCharBackward =>
    refine absurd hpops (not_pops ?_)
    show (s.handleBackspace graphemes).lastAction ≠ _
    unfold handleBackspace
    dsimp only
    split <;> exact fun h => by cases h
  | deleteCharForward =>
    refine absurd hpops (not_pops ?_)
    show (s.handleForwardDelete graphemes).lastAction ≠ _
    unfold handleForwardDelete
    dsimp only
    split <;> exact fun h => by cases h
  | deleteWordBackward =>
    exact .inr (.inr (untouched_of_ite (p := s.cursor = 0) rfl (fun h => by cases h) hpops))
  | deleteWordForward =>
    exact .inr (.inr (untouched_of_ite (p := s.value.length ≤ s.cursor) rfl (fun h => by cases h) hpops))
  | deleteToLineStart =>
    exact .inr (.inr (untouched_of_ite (p := s.cursor = 0) rfl (fun h => by cases h) hpops))
  | deleteToLineEnd =>
    exact .inr (.inr (untouched_of_ite (p := s.value.length ≤ s.cursor) rfl (fun h => by cases h) hpops))
  | yank =>
    have hyank : s.press graphemes wordSegments .yank = s.yank := rfl
    rw [hyank]
    unfold Input.yank
    cases hpeek : KillRing.peek s.killRing with
    | none => exact Or.inr (Or.inr (untouched_refl s))
    | some text =>
    cases text with
    | nil => exact Or.inr (Or.inr (untouched_refl s))
    | cons u us => exact Or.inl ⟨rfl, u :: us, List.cons_ne_nil u us, rfl⟩
  | yankPop =>
    by_cases hbefore : s.Pops
    · exact Or.inr (Or.inl ⟨rfl, hbefore⟩)
    · have hnone : s.press graphemes wordSegments .yankPop = s := if_neg hbefore
      rw [hnone]
      exact Or.inr (Or.inr (untouched_refl s))
  | cursorLeft =>
    refine absurd hpops (not_pops ?_)
    show (s.cursorLeft graphemes).lastAction ≠ _
    unfold cursorLeft
    dsimp only
    split <;> exact fun h => by cases h
  | cursorRight =>
    refine absurd hpops (not_pops ?_)
    show (s.cursorRight graphemes).lastAction ≠ _
    unfold cursorRight
    dsimp only
    split <;> exact fun h => by cases h
  | cursorLineStart => exact absurd hpops (not_pops (fun h => by cases h))
  | cursorLineEnd => exact absurd hpops (not_pops (fun h => by cases h))
  | cursorWordLeft =>
    exact .inr (.inr (untouched_of_ite (p := s.cursor = 0) rfl (fun h => by cases h) hpops))
  | cursorWordRight =>
    exact .inr (.inr (untouched_of_ite (p := s.value.length ≤ s.cursor) rfl (fun h => by cases h) hpops))

/-- The same for every event that keeps what has been yanked. -/
theorem pops_step {s : Input} (h : Inv s) {event : Event} (hkeeps : Keeps s event)
    (hpops : (s.step graphemes wordSegments event).Pops) :
    (event = .press .yank ∧ ∃ text, text ≠ [] ∧ KillRing.peek s.killRing = some text) ∨
      (event = .press .yankPop ∧ s.Pops) ∨
        Untouched s (s.step graphemes wordSegments event) := by
  cases event with
  | press key =>
    rcases pops_press hpops with ⟨rfl, htext⟩ | ⟨rfl, hbefore⟩ | hsame
    · exact Or.inl ⟨rfl, htext⟩
    · exact Or.inr (Or.inl ⟨rfl, hbefore⟩)
    · exact Or.inr (Or.inr hsame)
  | insert char => exact absurd hpops (not_pops nofun)
  | paste pastedText => exact absurd hpops (not_pops nofun)
  | buffer isInPaste pasteBuffer => exact Or.inr (Or.inr ⟨rfl, rfl, rfl, rfl⟩)
  | setValue value =>
    obtain rfl : value = s.value := hkeeps hpops
    have hcursor : min s.cursor s.value.length = s.cursor := min_eq_left h.cursor.bounds.2
    exact Or.inr (Or.inr ⟨rfl, hcursor, rfl, rfl⟩)

/-! ## Runs -/

theorem run_append (s : Input) (events more : List Event) :
    s.run graphemes wordSegments (events ++ more) =
      (s.run graphemes wordSegments events).run graphemes wordSegments more :=
  List.foldl_append

theorem run_concat (s : Input) (events : List Event) (event : Event) :
    s.run graphemes wordSegments (events ++ [event]) =
      (s.run graphemes wordSegments events).step graphemes wordSegments event := by
  rw [run_append]
  rfl

variable (graphemes wordSegments)

/-- The last change of the field was a yank, which put `text` between `before` and `behind`, or a
yank-pop, which put it in the place of what the yank or yank-pop before had put there. -/
inductive LastYank : List Event → JsString → JsString → JsString → Prop
  | yank {events : List Event} {before text behind : JsString}
      (hvalue : (initial.run graphemes wordSegments events).value = before ++ behind)
      (hcursor : (initial.run graphemes wordSegments events).cursor = before.length)
      (hshows : (initial.run graphemes wordSegments (events ++ [.press .yank])).Shows
        before text behind) :
      LastYank (events ++ [.press .yank]) before text behind
  | yankPop {events : List Event} {before last text behind : JsString}
      (hlast : LastYank events before last behind)
      (hshows : (initial.run graphemes wordSegments (events ++ [.press .yankPop])).Shows
        before text behind) :
      LastYank (events ++ [.press .yankPop]) before text behind
  /-- Nothing has changed since. -/
  | idle {events : List Event} {before text behind : JsString} {event : Event}
      (hlast : LastYank events before text behind)
      (hshows : (initial.run graphemes wordSegments (events ++ [event])).Shows
        before text behind) :
      LastYank (events ++ [event]) before text behind

/-- The owner keeps the value between every yank and its yank-pop. -/
def KeepsYanks (events : List Event) : Prop :=
  ∀ done event, done ++ [event] <+: events →
    Keeps (initial.run graphemes wordSegments done) event

/-- What is known of every state that is reached. -/
structure Reached (events : List Event) : Prop where
  inv : Inv (initial.run graphemes wordSegments events)
  yanked : (initial.run graphemes wordSegments events).Pops → ∃ before text behind,
    LastYank graphemes wordSegments events before text behind ∧
      KillRing.peek (initial.run graphemes wordSegments events).killRing = some text

variable {graphemes wordSegments}

theorem LastYank.shows {events : List Event} {before text behind : JsString}
    (h : LastYank graphemes wordSegments events before text behind) :
    (initial.run graphemes wordSegments events).Shows before text behind := by
  cases h with
  | yank _ _ hshows => exact hshows
  | yankPop _ hshows => exact hshows
  | idle _ hshows => exact hshows

theorem Reached.step (hgraphemes : IsGraphemes graphemes) (hwords : IsSegmenter wordSegments)
    {events : List Event} {event : Event} (h : Reached graphemes wordSegments events)
    (hkeeps : Keeps (initial.run graphemes wordSegments events) event) :
    Reached graphemes wordSegments (events ++ [event]) := by
  have hrun := @run_concat graphemes wordSegments initial events event
  set s := initial.run graphemes wordSegments events with hs
  constructor
  · rw [hrun]
    cases event with
    | press key =>
      refine h.inv.press hgraphemes hwords (fun hpops => ?_) key
      obtain ⟨before, text, behind, hlast, hpeek⟩ := h.yanked hpops
      obtain ⟨hvalue, hcursor⟩ := hlast.shows
      rw [hpeek, Option.getD_some, hvalue, hcursor]
      refine ⟨before.length, ?_, ?_⟩
      · rw [List.length_append]
        omega
      · rw [List.append_assoc, List.length_append]
        omega
    | insert char =>
      refine Inv.edit h.inv ?_ ?_
      · show InField (insertText _ char).value (insertText _ char).cursor
        refine insertText_inField char ?_
        split
        · exact h.inv.cursor
        · exact h.inv.cursor
      · show (if _ then s.pushUndo else s).undoStack ⊆ _
        split
        · exact List.Subset.refl _
        · exact List.subset_cons_self _ _
    | paste pastedText =>
      exact h.inv.edit
        (insertText_inField (cleanText pastedText) h.inv.cursor) (List.Subset.refl _)
    | buffer isInPaste pasteBuffer => exact ⟨h.inv.cursor, h.inv.undo⟩
    | setValue value =>
      have hpos := h.inv.cursor.bounds.1
      exact ⟨inField_of_bounds (le_min hpos (Int.natCast_nonneg _)) (min_le_right _ _), h.inv.undo⟩
  · intro hpops
    rw [hrun] at hpops
    have hstep := hrun
    rcases pops_step h.inv hkeeps hpops with ⟨rfl, text, hne, hpeek⟩ | ⟨rfl, hbefore⟩ | hsame
    · obtain ⟨before, behind, hvalue, hcursor, hshows, hpeek'⟩ := yank_shows h.inv hne hpeek
      refine ⟨before, text, behind, .yank hvalue hcursor ?_, ?_⟩
      · rw [hrun]
        exact hshows
      · rw [hrun]
        exact hpeek'
    · obtain ⟨before, text, behind, hlast, hpeek⟩ := h.yanked hbefore
      obtain ⟨next, hshows, hpeek'⟩ := yankPop_shows hbefore hlast.shows hpeek
      refine ⟨before, next, behind, .yankPop hlast ?_, ?_⟩
      · rw [hrun]
        exact hshows
      · rw [hrun]
        exact hpeek'
    · have hbefore : s.Pops := by
        refine ⟨?_, ?_⟩
        · rw [← hsame.lastAction]
          exact hpops.1
        · rw [← hsame.killRing]
          exact hpops.2
      obtain ⟨before, text, behind, hlast, hpeek⟩ := h.yanked hbefore
      refine ⟨before, text, behind, .idle hlast ?_, ?_⟩
      · rw [hrun]
        exact ⟨hsame.value.trans hlast.shows.value, hsame.cursor.trans hlast.shows.cursor⟩
      · rw [hrun, hsame.killRing]
        exact hpeek

theorem KeepsYanks.front {events done : List Event} (h : KeepsYanks graphemes wordSegments events)
    (hdone : done <+: events) : KeepsYanks graphemes wordSegments done :=
  fun earlier event hearlier => h earlier event (hearlier.trans hdone)

theorem reached_run (hgraphemes : IsGraphemes graphemes) (hwords : IsSegmenter wordSegments)
    (events : List Event) (h : KeepsYanks graphemes wordSegments events) :
    Reached graphemes wordSegments events := by
  induction events using List.reverseRecOn with
  | nil => exact ⟨inv_initial, fun hpops => absurd hpops (not_pops nofun)⟩
  | append_singleton events event ih =>
    exact (ih (h.front (List.prefix_append _ _))).step hgraphemes hwords
      (h events event (List.prefix_refl _))

/-- **The cursor stays in the field**, and a yank-pop replaces what the last yank or yank-pop put
there, in every sequence of operations in which the owner keeps the value in between. -/
theorem cursor_and_yankPop (keyMatches : JsString → InputKey → Bool)
    (decodeKittyPrintable : JsString → Option JsString) (hgraphemes : IsGraphemes graphemes)
    (hwords : IsSegmenter wordSegments) (ops : List Op)
    (hkeeps : KeepsYanks graphemes wordSegments
      (history keyMatches decodeKittyPrintable graphemes wordSegments initial ops)) :
    ∀ done, done <+: history keyMatches decodeKittyPrintable graphemes wordSegments initial ops →
      let s := initial.run graphemes wordSegments done
      (0 ≤ s.cursor ∧ s.cursor ≤ s.value.length) ∧
        (s.Pops → ∃ before text behind next,
          LastYank graphemes wordSegments done before text behind ∧
            s.Shows before text behind ∧ s.yankPop.Shows before next behind) := by
  intro done hdone
  have hreached := reached_run hgraphemes hwords done (hkeeps.front hdone)
  refine ⟨hreached.inv.cursor.bounds, fun hpops => ?_⟩
  obtain ⟨before, text, behind, hlast, hpeek⟩ := hreached.yanked hpops
  obtain ⟨next, hnext, -⟩ := yankPop_shows hpops hlast.shows hpeek
  exact ⟨before, text, behind, next, hlast, hlast.shows, hnext⟩

end Yanks

/-- The operations one after the other. -/
def apply (keyMatches : JsString → InputKey → Bool)
    (decodeKittyPrintable : JsString → Option JsString) (graphemes : JsString → List JsString)
    (wordSegments : JsString → List WordSegment) (s : Input) : Op → Input
  | .handleInput data => s.handleInput keyMatches decodeKittyPrintable graphemes wordSegments data
  | .setValue value => s.setValue value

/-! ## One ring, with and without a new value -/

/-- `ctrl+u`, `ctrl+y` and `alt+y`. -/
def boundKeys (data : JsString) (key : InputKey) : Bool :=
  (data, key) ∈ [(js "\x15", InputKey.deleteToLineStart), (js "\x19", .yank),
    (js "\x1by", .yankPop)]

/-- One grapheme, and one segment, for each unit. -/
def unitGraphemes (text : JsString) : List JsString := text.map fun u => [u]

def unitSegments (text : JsString) : List WordSegment := text.map fun u => ⟨[u], true⟩

theorem isGraphemes_unit : IsGraphemes unitGraphemes := by
  intro text
  induction text with
  | nil => rfl
  | cons u us ih => rw [unitGraphemes, List.map_cons, List.flatten_cons]; exact congrArg (u :: ·) ih

theorem isSegmenter_unit : IsSegmenter unitSegments := by
  refine ⟨fun text => ?_, fun text seg hseg => ?_⟩
  · induction text with
    | nil => rfl
    | cons u us ih =>
      rw [unitSegments, List.map_cons, List.flatMap_cons]
      exact congrArg (u :: ·) ih
  · obtain ⟨u, -, rfl⟩ := List.mem_map.mp hseg
    exact List.cons_ne_nil u []

/-- Two kills, a yank, and then these. -/
def opsOf (more : List Op) : List Op :=
  [.handleInput (js "a"), .handleInput (js "\x15"), .handleInput (js "bcd"),
    .handleInput (js "\x15"), .handleInput (js "\x19")] ++ more

def historyOf (ops : List Op) : List Event :=
  history boundKeys (fun _ => none) unitGraphemes unitSegments initial ops

theorem keepsYanks_of_keys {graphemes : JsString → List JsString}
    {wordSegments : JsString → List WordSegment} {events : List Event}
    (h : ∀ event ∈ events, ∀ value, event ≠ .setValue value) :
    KeepsYanks graphemes wordSegments events := by
  intro done event hevent
  have hmem : event ∈ events := hevent.subset (List.mem_append_right _ List.mem_cons_self)
  cases event with
  | setValue value => exact absurd rfl (h _ hmem value)
  | _ => exact trivial

theorem historyOf_yankPop : historyOf (opsOf [.handleInput (js "\x1by")]) =
    [.insert (js "a"), .press .deleteToLineStart, .insert (js "bcd"), .press .deleteToLineStart,
      .press .yank, .press .yankPop] := by
  decide +kernel

theorem yankPop_replaces_bcd :
    let s := initial.run unitGraphemes unitSegments (historyOf (opsOf [.handleInput (js "\x1by")]))
    (0 ≤ s.cursor ∧ s.cursor ≤ s.value.length) ∧
      (s.Pops → ∃ before text behind next,
        LastYank unitGraphemes unitSegments (historyOf (opsOf [.handleInput (js "\x1by")]))
            before text behind ∧
          s.Shows before text behind ∧ s.yankPop.Shows before next behind) := by
  refine cursor_and_yankPop boundKeys (fun _ => none) isGraphemes_unit isSegmenter_unit _ ?_ _
    List.prefix_rfl
  refine keepsYanks_of_keys ?_
  rw [show history _ _ _ _ _ _ = _ from historyOf_yankPop]
  simp

/-- After `setValue("")` the cursor goes in front of the field. -/
theorem not_cursor_in_field : ¬ ∀ ops : List Op,
    0 ≤ (ops.foldl (apply boundKeys (fun _ => none) unitGraphemes unitSegments)
      initial).cursor := by
  intro h
  have hcursor := h (opsOf [.setValue [], .handleInput (js "\x1by")])
  revert hcursor
  decide +kernel

end PiMono.Tui.Input
