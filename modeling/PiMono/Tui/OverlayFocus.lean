import PiMono.Tui.Overlays
import PiMono.Lib.Runs
import Mathlib.Data.List.Nodup

/-!
# The focus is on no hidden overlay

Where the focus can move (`nextFocus_cases`), what every step keeps (`Inv`), and that input goes
to no overlay that is hidden or removed (`input_not_hidden`).

- `SameOverlays` and `SameShape` are frames: what moves the focus leaves the overlays, and what
  changes an overlay leaves which component belongs to which;
- `Placed` is the invariant without the focus, `Inv` the invariant;
- each action keeps it, if it is `sound` in its state.
-/

namespace PiMono.Tui.TuiBase

variable {κ : Type} [DecidableEq κ] {s : TuiBase κ}

/-! ## Overlays of the stack -/

omit [DecidableEq κ] in
/-- An overlay of the stack is an entry that is stacked. -/
theorem mem_stacked {o : Nat × OverlayStackEntry κ} :
    o ∈ s.stacked ↔ o.1 ∈ s.overlayStack ∧ s.entries[o.1]? = some o.2 := by
  unfold stacked
  rw [List.mem_filterMap]
  constructor
  · rintro ⟨id, hid, hentry⟩
    obtain ⟨entry, hfound, rfl⟩ := Option.map_eq_some_iff.mp hentry
    exact ⟨hid, hfound⟩
  · rintro ⟨hid, hentry⟩
    exact ⟨o.1, hid, by rw [hentry]; rfl⟩

theorem isOverlay_iff {c : κ} : s.isOverlay c = true ↔ ∃ o ∈ s.stacked, o.2.component = c := by
  simp [isOverlay]

theorem isOverlay_of_mem {o : Nat × OverlayStackEntry κ} (h : o ∈ s.stacked) :
    s.isOverlay o.2.component = true := isOverlay_iff.mpr ⟨o, h, rfl⟩

/-- The component of an overlay of the stack is not removed. -/
theorem safe_of_mem {o : Nat × OverlayStackEntry κ} (h : o ∈ s.stacked) :
    s.safe (some o.2.component) = true := by
  simp [safe, isRemovedOverlay, isOverlay_of_mem h]

/-- A visible overlay is shown. -/
theorem shown_of_visible {o : Nat × OverlayStackEntry κ} (h : o ∈ s.stacked)
    (hvisible : s.isOverlayVisible o = true) : s.shown (some o.2.component) = true := by
  have hany : (s.stacked.any fun other =>
      other.2.component = o.2.component && s.isOverlayVisible other) = true :=
    List.any_eq_true.mpr ⟨o, h, by simp [hvisible]⟩
  simp [shown, isHiddenOverlay, hany]

/-- What is not hidden is not removed. -/
theorem safe_of_shown {focus : Option κ} (h : s.shown focus = true) : s.safe focus = true := by
  cases focus with
  | none => rfl
  | some c =>
    have hhidden : s.isHiddenOverlay c = false := by simpa [shown] using h
    unfold safe
    rw [Option.all_some, Bool.not_eq_true', isRemovedOverlay, Bool.and_eq_false_iff]
    obtain hentry | hvisible := Bool.and_eq_false_iff.mp hhidden
    · exact .inl hentry
    · refine .inr ?_
      rw [Bool.not_eq_false'] at hvisible ⊢
      obtain ⟨o, ho, hc⟩ := List.any_eq_true.mp hvisible
      exact isOverlay_iff.mpr ⟨o, ho, by simpa using (Bool.and_eq_true_iff.mp hc).1⟩

/-- A component of no overlay of the stack is removed or was never shown. -/
theorem shown_of_safe {c : κ} (h : s.safe (some c) = true) (hoverlay : s.isOverlay c = false) :
    s.shown (some c) = true := by
  have hentry : (s.entries.any fun entry => entry.component = c) = false := by
    simpa [safe, isRemovedOverlay, hoverlay] using h
  simp [shown, isHiddenOverlay, hentry]

omit [DecidableEq κ] in
/-- The topmost visible overlay is stacked, and visible. -/
theorem getTopmostVisibleOverlay_spec {top : Nat × OverlayStackEntry κ}
    (h : s.getTopmostVisibleOverlay = some top) :
    top ∈ s.stacked ∧ s.isOverlayVisible top = true := by
  unfold getTopmostVisibleOverlay at h
  refine List.foldlRecOn (motive := fun topmost => ∀ top, topmost = some top →
    top ∈ s.stacked ∧ s.isOverlayVisible top = true) s.stacked _ (fun _ h => by cases h)
    (fun topmost htopmost overlay hstacked top htop => ?_) top h
  by_cases hskipped : (overlay.2.nonCapturing || !s.isOverlayVisible overlay) = true
  · rw [if_pos hskipped] at htop
    exact htopmost top htop
  · rw [if_neg hskipped] at htop
    have hoverlay : overlay ∈ s.stacked ∧ s.isOverlayVisible overlay = true := by
      refine ⟨hstacked, ?_⟩
      simp only [Bool.or_eq_true, Bool.not_eq_true', not_or, Bool.not_eq_false] at hskipped
      exact hskipped.2
    cases topmost with
    | none => exact Option.some.inj htop ▸ hoverlay
    | some top' =>
      dsimp only at htop
      split at htop
      · exact Option.some.inj htop ▸ hoverlay
      · exact htopmost top htop

omit [DecidableEq κ] in
/-- So is an overlay that gets the focus back. -/
theorem getVisibleOverlayFocusRestore_spec {overlay : Nat × OverlayStackEntry κ}
    {blocked : Option (κ × Resume κ)}
    (h : s.getVisibleOverlayFocusRestore = some (overlay, blocked)) :
    overlay ∈ s.stacked ∧ s.isOverlayVisible overlay = true := by
  have hvisible : ∀ {id o}, s.visibleOverlay? id = some o →
      o ∈ s.stacked ∧ s.isOverlayVisible o = true := by
    intro id o ho
    have hspec := List.find?_some ho
    exact ⟨List.mem_of_find?_eq_some ho, by simpa using (of_decide_eq_true hspec).2⟩
  unfold getVisibleOverlayFocusRestore at h
  split at h
  · cases h
  · obtain ⟨o, ho, heq⟩ := Option.map_eq_some_iff.mp h
    rw [← (Prod.mk.inj heq).1]
    exact hvisible ho
  · obtain ⟨o, ho, heq⟩ := Option.map_eq_some_iff.mp h
    rw [← (Prod.mk.inj heq).1]
    exact hvisible ho

/-! ## Moving the focus -/

/-- Only the focus and what restores it differ. -/
structure SameOverlays (s t : TuiBase κ) : Prop where
  entries : t.entries = s.entries
  overlayStack : t.overlayStack = s.overlayStack
  visible : t.visible = s.visible

namespace SameOverlays

omit [DecidableEq κ] in
theorem refl (s : TuiBase κ) : SameOverlays s s := ⟨rfl, rfl, rfl⟩

variable {t u : TuiBase κ}

omit [DecidableEq κ] in
theorem trans (h : SameOverlays s t) (h' : SameOverlays t u) : SameOverlays s u :=
  ⟨h'.entries.trans h.entries, h'.overlayStack.trans h.overlayStack, h'.visible.trans h.visible⟩

omit [DecidableEq κ] in
theorem stacked (h : SameOverlays s t) : t.stacked = s.stacked := by
  rw [TuiBase.stacked, TuiBase.stacked, h.entries, h.overlayStack]

omit [DecidableEq κ] in
theorem isOverlayVisible (h : SameOverlays s t) : t.isOverlayVisible = s.isOverlayVisible := by
  funext o
  rw [TuiBase.isOverlayVisible, TuiBase.isOverlayVisible, h.visible]

theorem isOverlay (h : SameOverlays s t) : t.isOverlay = s.isOverlay := by
  funext c
  rw [TuiBase.isOverlay, TuiBase.isOverlay, h.stacked]

theorem safe (h : SameOverlays s t) : t.safe = s.safe := by
  funext focus
  simp only [TuiBase.safe, isRemovedOverlay, h.entries, h.isOverlay]

theorem shown (h : SameOverlays s t) : t.shown = s.shown := by
  funext focus
  simp only [TuiBase.shown, isHiddenOverlay, h.entries, h.stacked, h.isOverlayVisible]

end SameOverlays

omit [DecidableEq κ] in
/-- Resolving a blocked resume changes no overlay. -/
theorem same_resolve (overlay : Nat × OverlayStackEntry κ) (resume : Resume κ) :
    SameOverlays s (s.resolveBlockedOverlayFocusResume overlay resume).2 := by
  cases resume with
  | restoreOverlay => exact .refl s
  | focusTarget target => exact ⟨rfl, rfl, rfl⟩

/-- Choosing the next focus changes no overlay. -/
theorem same_nextFocus (component : Option κ) (clear : Bool) :
    SameOverlays s (s.nextFocus component clear).2 := by
  unfold nextFocus
  dsimp only
  repeat' split
  all_goals first
    | exact same_resolve ..
    | exact ⟨rfl, rfl, rfl⟩

/-- Setting the focus changes no overlay. -/
theorem same_setFocusInternal (component : Option κ) (clear : Bool) :
    SameOverlays s (s.setFocusInternal component clear) :=
  (same_nextFocus component clear).trans ⟨rfl, rfl, rfl⟩

/-- The focus moves to the component, to a visible overlay, or to a target that is resumed. -/
theorem nextFocus_cases (component : Option κ) (clear : Bool) :
    (s.nextFocus component clear).1 = component ∨
      (∃ o ∈ s.stacked, s.isOverlayVisible o = true ∧
        (s.nextFocus component clear).1 = some o.2.component) ∨
      (s.nextFocus component clear).1 = s.resumed component := by
  have hresolve : ∀ {overlay : Nat × OverlayStackEntry κ} {blockedBy : κ} {resume : Resume κ},
      (component.map s.isOverlay).getD false = false →
      s.getVisibleOverlayFocusRestore = some (overlay, some (blockedBy, resume)) →
      s.focusedComponent = some blockedBy →
      (∃ o ∈ s.stacked, s.isOverlayVisible o = true ∧
        (s.resolveBlockedOverlayFocusResume overlay resume).1 = some o.2.component) ∨
      (s.resolveBlockedOverlayFocusResume overlay resume).1 = s.resumed component := by
    intro overlay blockedBy resume hcomponent hrestore hfocused
    obtain ⟨hmem, hvisible⟩ := getVisibleOverlayFocusRestore_spec hrestore
    cases resume with
    | restoreOverlay => exact .inl ⟨overlay, hmem, hvisible, rfl⟩
    | focusTarget target =>
      refine .inr ?_
      unfold resumed
      rw [hcomponent, if_neg Bool.false_ne_true, hrestore]
      exact (if_pos hfocused).symm
  unfold nextFocus
  dsimp only
  cases component with
  | none =>
    dsimp only
    split
    · rename_i overlay blockedBy resume hrestore
      split
      · rename_i hfocused
        exact .inr (hresolve rfl hrestore hfocused)
      · exact .inl rfl
    · exact .inl rfl
  | some next =>
    dsimp only
    split
    · exact .inl rfl
    · rename_i hoverlay
      split
      · rename_i overlay blockedBy resume hrestore
        split
        · rename_i hfocused
          split
          · exact .inr (hresolve (Bool.eq_false_iff.mpr hoverlay) hrestore hfocused)
          · exact .inl rfl
        · refine .inl ?_
          repeat' split
          all_goals rfl
      · refine .inl ?_
        repeat' split
        all_goals rfl
      · exact .inl rfl

theorem focused_setFocusInternal (component : Option κ) (clear : Bool) :
    (s.setFocusInternal component clear).focusedComponent = (s.nextFocus component clear).1 := rfl

/-- The focus moves to no removed overlay. -/
theorem safe_setFocusInternal {component : Option κ} (hcomponent : s.safe component = true)
    (hresumed : s.safe (s.resumed component) = true) (clear : Bool) :
    s.safe (s.setFocusInternal component clear).focusedComponent = true := by
  rw [focused_setFocusInternal]
  obtain heq | ⟨o, ho, -, heq⟩ | heq := @nextFocus_cases κ _ s component clear
  · rw [heq]
    exact hcomponent
  · rw [heq]
    exact safe_of_mem ho
  · rw [heq]
    exact hresumed

/-- The focus moves to no hidden overlay. -/
theorem shown_setFocusInternal {component : Option κ} (hcomponent : s.shown component = true)
    (hresumed : s.shown (s.resumed component) = true) (clear : Bool) :
    s.shown (s.setFocusInternal component clear).focusedComponent = true := by
  rw [focused_setFocusInternal]
  obtain heq | ⟨o, ho, hvisible, heq⟩ | heq := @nextFocus_cases κ _ s component clear
  · rw [heq]
    exact hcomponent
  · rw [heq]
    exact shown_of_visible ho hvisible
  · rw [heq]
    exact hresumed

/-- Nothing is resumed where an overlay gets the focus. -/
theorem resumed_of_isOverlay {c : κ} (h : s.isOverlay c = true) : s.resumed (some c) = none := by
  unfold resumed
  rw [Option.map_some, Option.getD_some, if_pos h]

/-! ## What every step keeps -/

/-- The overlays of the stack have their places, and fall back on no removed overlay. -/
structure Placed (s : TuiBase κ) : Prop where
  bound : ∀ id ∈ s.overlayStack, id < s.entries.length
  nodup : s.overlayStack.Nodup
  preFocus : ∀ o ∈ s.stacked, s.safe o.2.preFocus = true

/-- The focus is on no removed overlay either. -/
structure Inv (s : TuiBase κ) : Prop extends Placed s where
  focus : s.safe s.focusedComponent = true

/-- It holds at the start, without overlays. -/
theorem inv_initial (mounted : κ → Bool) (visible : Nat → Bool) : Inv (initial mounted visible) :=
  ⟨⟨nofun, List.nodup_nil, nofun⟩, rfl⟩

/-- What an entry is to the focus. -/
def key (entry : OverlayStackEntry κ) : κ × Option κ := (entry.component, entry.preFocus)

/-- The overlays differ in neither their components nor what they fall back on. -/
structure SameShape (s t : TuiBase κ) : Prop where
  overlayStack : t.overlayStack = s.overlayStack
  entries : t.entries.map key = s.entries.map key

namespace SameShape

variable {t : TuiBase κ}

omit [DecidableEq κ] in
theorem getElem? (h : SameShape s t) (id : Nat) :
    t.entries[id]?.map key = s.entries[id]?.map key := by
  rw [← List.getElem?_map, ← List.getElem?_map, h.entries]

omit [DecidableEq κ] in
theorem mem (h : SameShape s t) {o : Nat × OverlayStackEntry κ} (ho : o ∈ t.stacked) :
    ∃ entry, (o.1, entry) ∈ s.stacked ∧ key entry = key o.2 := by
  obtain ⟨hid, hentry⟩ := mem_stacked.mp ho
  have hkey := h.getElem? o.1
  rw [hentry, Option.map_some] at hkey
  obtain ⟨entry, hentry', hsame⟩ := Option.map_eq_some_iff.mp hkey.symm
  exact ⟨entry, mem_stacked.mpr ⟨h.overlayStack ▸ hid, hentry'⟩, hsame⟩

omit [DecidableEq κ] in
theorem symm (h : SameShape s t) : SameShape t s := ⟨h.overlayStack.symm, h.entries.symm⟩

theorem isOverlay (h : SameShape s t) : t.isOverlay = s.isOverlay := by
  have hle : ∀ {s t : TuiBase κ}, SameShape s t → ∀ c, t.isOverlay c = true →
    s.isOverlay c = true := by
    intro s t h c hc
    obtain ⟨o, ho, rfl⟩ := isOverlay_iff.mp hc
    obtain ⟨entry, hentry, hkey⟩ := h.mem ho
    exact isOverlay_iff.mpr ⟨_, hentry, congrArg Prod.fst hkey⟩
  funext c
  exact Bool.eq_iff_iff.mpr ⟨hle h c, hle h.symm c⟩

theorem safe (h : SameShape s t) : t.safe = s.safe := by
  have hany : ∀ c, (t.entries.any fun entry => entry.component = c)
      = s.entries.any fun entry => entry.component = c := by
    intro c
    have hmap : ∀ entries : List (OverlayStackEntry κ),
        (entries.any fun entry => entry.component = c)
          = (entries.map key).any fun k => k.1 = c := by
      intro entries
      rw [List.any_map]
      rfl
    rw [hmap, hmap, h.entries]
  funext focus
  simp only [TuiBase.safe, isRemovedOverlay, hany, h.isOverlay]

theorem placed (h : SameShape s t) (hs : Placed s) : Placed t := by
  refine ⟨fun id hid => ?_, h.overlayStack ▸ hs.nodup, fun o ho => ?_⟩
  · have hlength : t.entries.length = s.entries.length := by
      simpa using congrArg List.length h.entries
    rw [hlength]
    exact hs.bound id (h.overlayStack ▸ hid)
  · obtain ⟨entry, hentry, hkey⟩ := h.mem ho
    rw [h.safe, ← show entry.preFocus = o.2.preFocus from congrArg Prod.snd hkey]
    exact hs.preFocus _ hentry

end SameShape

omit [DecidableEq κ] in
/-- The same overlays are of the same shape. -/
theorem SameOverlays.sameShape {t : TuiBase κ} (h : SameOverlays s t) : SameShape s t :=
  ⟨h.overlayStack, by rw [h.entries]⟩

/-- The focus may move to a component that is safe. -/
theorem Placed.setFocus (h : Placed s) {component : Option κ} (hcomponent : s.safe component = true)
    (hresumed : s.safe (s.resumed component) = true) (clear : Bool) :
    Inv (s.setFocusInternal component clear) := by
  have hsame := @same_setFocusInternal κ _ s component clear
  refine ⟨hsame.sameShape.placed h, ?_⟩
  rw [hsame.safe]
  exact safe_setFocusInternal hcomponent hresumed clear

/-- The focus moves to an overlay of the stack. -/
theorem Placed.setFocus_overlay (h : Placed s) {c : κ} (hc : s.isOverlay c = true) (clear : Bool) :
    Inv (s.setFocusInternal (some c) clear) := by
  refine h.setFocus ?_ ?_ clear
  · obtain ⟨o, ho, rfl⟩ := isOverlay_iff.mp hc
    exact safe_of_mem ho
  · rw [resumed_of_isOverlay hc]
    rfl

/-- The focus leaves an overlay. -/
theorem Placed.leave (h : Placed s) {entry : OverlayStackEntry κ}
    (hfocus : s.focusedComponent ≠ some entry.component → s.safe s.focusedComponent = true)
    (hback : s.fallsBack entry = true →
      s.safe entry.preFocus = true ∧ s.safe (s.resumed entry.preFocus) = true) :
    Inv (s.leave entry) := by
  unfold TuiBase.leave
  split
  · rename_i hfocused
    unfold fallBack
    cases htop : s.getTopmostVisibleOverlay with
    | some top =>
      exact h.setFocus_overlay (isOverlay_of_mem (getTopmostVisibleOverlay_spec htop).1) true
    | none =>
      have hfalls : s.fallsBack entry = true := by simp [fallsBack, hfocused, htop]
      exact h.setFocus (hback hfalls).1 (hback hfalls).2 true
  · rename_i hfocused
    exact ⟨h, hfocus hfocused⟩

omit [DecidableEq κ] in
theorem same_clearFor (overlay : Nat) : SameOverlays s (s.clearOverlayFocusRestoreFor overlay) := by
  unfold clearOverlayFocusRestoreFor
  split
  · exact ⟨rfl, rfl, rfl⟩
  · exact .refl s

omit [DecidableEq κ] in
theorem focused_clearFor (overlay : Nat) :
    (s.clearOverlayFocusRestoreFor overlay).focusedComponent = s.focusedComponent := by
  unfold clearOverlayFocusRestoreFor
  split <;> rfl

omit [DecidableEq κ] in
/-- A change of an entry that keeps its key keeps the shape. -/
theorem sameShape_modifyEntry (overlay : Nat) {f : OverlayStackEntry κ → OverlayStackEntry κ}
    (hf : ∀ entry, key (f entry) = key entry) : SameShape s (s.modifyEntry overlay f) := by
  refine ⟨rfl, List.ext_getElem? fun id => ?_⟩
  show ((s.entries.modify overlay f).map key)[id]? = _
  rw [List.getElem?_map, List.getElem?_modify, List.getElem?_map]
  cases s.entries[id]? with
  | none => rfl
  | some entry =>
    by_cases hid : overlay = id
    · simp [hid, hf]
    · simp [hid]

/-! ### Showing -/

/-- An overlay is shown on top. -/
theorem Inv.showOverlay (h : Inv s) (component : κ) (nonCapturing conditional : Bool) :
    Inv (s.showOverlay component nonCapturing conditional) := by
  unfold TuiBase.showOverlay
  dsimp only
  generalize hentry : (⟨component, nonCapturing, conditional, s.focusedComponent, false,
    s.focusOrderCounter + 1⟩ : OverlayStackEntry κ) = entry
  generalize ht : ({ s with
    entries := s.entries ++ [entry]
    overlayStack := s.overlayStack ++ [s.entries.length]
    focusOrderCounter := s.focusOrderCounter + 1 } : TuiBase κ) = t
  have hstacked : t.stacked = s.stacked ++ [(s.entries.length, entry)] := by
    rw [← ht]
    show (s.overlayStack ++ [s.entries.length]).filterMap _ = _
    rw [List.filterMap_append]
    refine congrArg₂ (· ++ ·) (List.filterMap_congr fun id hid => ?_) ?_
    · rw [List.getElem?_append_left (h.bound id hid)]
    · simp
  have hoverlay : t.isOverlay component = true :=
    isOverlay_iff.mpr ⟨(s.entries.length, entry),
      hstacked ▸ List.mem_append_right _ (List.mem_singleton.mpr rfl), by rw [← hentry]⟩
  -- the component of the new overlay is not removed, and the others are as they were
  have hsafe : ∀ focus, s.safe focus = true → t.safe focus = true := by
    intro focus hfocus
    cases focus with
    | none => rfl
    | some c =>
      by_cases hc : component = c
      · rw [← hc]
        simp [safe, isRemovedOverlay, hoverlay]
      · have hentries : (t.entries.any fun entry => entry.component = c)
            = s.entries.any fun entry => entry.component = c := by
          rw [← ht, ← hentry]
          simp [hc]
        have hsame : t.isOverlay c = s.isOverlay c := by
          rw [isOverlay, isOverlay, hstacked, ← hentry]
          simp [hc]
        simpa [safe, isRemovedOverlay, hentries, hsame] using hfocus
  have hplaced : Placed t := by
    refine ⟨fun id hid => ?_, ?_, fun o ho => ?_⟩
    · rw [← ht] at hid ⊢
      show id < (s.entries ++ [entry]).length
      rw [List.length_append, List.length_singleton]
      obtain hold | hnew := List.mem_append.mp hid
      · exact Nat.lt_succ_of_lt (h.bound id hold)
      · exact List.mem_singleton.mp hnew ▸ Nat.lt_succ_self _
    · rw [← ht]
      refine List.nodup_append.mpr ⟨h.nodup, List.nodup_singleton _, fun a ha b hb heq => ?_⟩
      exact absurd (h.bound a ha) (by rw [heq, List.mem_singleton.mp hb]; exact Nat.lt_irrefl _)
    · rw [hstacked] at ho
      obtain hold | hnew := List.mem_append.mp ho
      · exact hsafe _ (h.preFocus o hold)
      · rw [List.mem_singleton.mp hnew, ← hentry]
        exact hsafe _ h.focus
  split
  · exact hplaced.setFocus_overlay hoverlay true
  · refine ⟨hplaced, ?_⟩
    rw [show t.focusedComponent = s.focusedComponent by rw [← ht]]
    exact hsafe _ h.focus

/-! ### Hiding -/

section Detach

variable {overlay : Nat} {entry : OverlayStackEntry κ}

/-- What is left of the overlays when one is removed. -/
theorem entries_detach (id : Nat) : (s.detach overlay entry).entries[id]?
    = s.entries[id]?.map fun e =>
        if id ∈ s.overlayStack ∧ id ≠ overlay ∧ e.preFocus = some entry.component then
          { e with preFocus := entry.preFocus } else e := by
  have hsame := @same_clearFor κ s overlay
  show ((s.clearOverlayFocusRestoreFor overlay).entries.mapIdx _)[id]? = _
  rw [List.getElem?_mapIdx, hsame.entries, hsame.overlayStack]

theorem overlayStack_detach :
    (s.detach overlay entry).overlayStack = s.overlayStack.erase overlay := by
  show (s.clearOverlayFocusRestoreFor overlay).overlayStack.erase overlay = _
  rw [(same_clearFor overlay).overlayStack]

theorem focused_detach : (s.detach overlay entry).focusedComponent = s.focusedComponent :=
  focused_clearFor overlay

/-- The overlays that are left when one is detached. -/
theorem mem_detach (hnodup : s.overlayStack.Nodup) {o : Nat × OverlayStackEntry κ} :
    o ∈ (s.detach overlay entry).stacked ↔ ∃ e, (o.1, e) ∈ s.stacked ∧ o.1 ≠ overlay ∧
      o.2 = if e.preFocus = some entry.component then
        { e with preFocus := entry.preFocus } else e := by
  rw [mem_stacked, overlayStack_detach, entries_detach, hnodup.mem_erase_iff]
  constructor
  · rintro ⟨⟨hne, hid⟩, hentry⟩
    obtain ⟨e, he, heq⟩ := Option.map_eq_some_iff.mp hentry
    refine ⟨e, mem_stacked.mpr ⟨hid, he⟩, hne, heq.symm.trans ?_⟩
    simp [hid, hne]
  · rintro ⟨e, he, hne, heq⟩
    obtain ⟨hid, he⟩ := mem_stacked.mp he
    refine ⟨⟨hne, hid⟩, ?_⟩
    rw [he, heq]
    simp [hid, hne]

theorem component_detach {e : OverlayStackEntry κ} :
    (if e.preFocus = some entry.component then
      { e with preFocus := entry.preFocus } else e).component
      = e.component := by
  split <;> rfl

/-- Only the component of the overlay can be removed now. -/
theorem safe_detach (hnodup : s.overlayStack.Nodup) (hentry : (overlay, entry) ∈ s.stacked)
    {focus : Option κ} (hfocus : s.safe focus = true)
    (hne : focus = some entry.component →
      (s.detach overlay entry).isOverlay entry.component = true) :
    (s.detach overlay entry).safe focus = true := by
  cases focus with
  | none => rfl
  | some c =>
    cases hoverlay : (s.detach overlay entry).isOverlay c with
    | true => simp [safe, isRemovedOverlay, hoverlay]
    | false =>
      have hold : s.isOverlay c = false := by
        refine Bool.eq_false_iff.mpr fun hc => ?_
        obtain ⟨⟨id, e⟩, he, rfl⟩ := isOverlay_iff.mp hc
        by_cases hid : id = overlay
        · subst hid
          have hsame : e = entry := Option.some.inj
            ((mem_stacked.mp he).2.symm.trans (mem_stacked.mp hentry).2)
          subst hsame
          rw [hne rfl] at hoverlay
          cases hoverlay
        · have hmem : (s.detach overlay entry).isOverlay e.component = true :=
            isOverlay_iff.mpr ⟨(id, _), (mem_detach hnodup).mpr ⟨e, he, hid, rfl⟩, component_detach⟩
          rw [hmem] at hoverlay
          cases hoverlay
      have hentries : ((s.detach overlay entry).entries.any fun entry => entry.component = c)
          = false := by
        have hany : (s.entries.any fun entry => entry.component = c) = false := by
          simpa [safe, isRemovedOverlay, hold] using hfocus
        refine Bool.eq_false_iff.mpr fun hc => ?_
        obtain ⟨e, he, hc⟩ := List.any_eq_true.mp hc
        obtain ⟨id, hid⟩ := List.mem_iff_getElem?.mp he
        rw [entries_detach] at hid
        obtain ⟨e', he', rfl⟩ := Option.map_eq_some_iff.mp hid
        have hcomponent : e'.component = c := by
          rw [decide_eq_true_eq] at hc
          rw [← hc]
          split <;> rfl
        have hyes : (s.entries.any fun entry => entry.component = c) = true :=
          List.any_eq_true.mpr ⟨e', List.mem_of_getElem? he', by simp [hcomponent]⟩
        rw [hyes] at hany
        cases hany
      simp [safe, isRemovedOverlay, hentries]

end Detach

/-- An overlay is hidden for good, and the focus goes back. -/
theorem Inv.hide (h : Inv s) {overlay : Nat} (hsound : s.hidesSoundly overlay = true) :
    Inv (s.hide overlay) := by
  unfold TuiBase.hide
  unfold hidesSoundly at hsound
  cases hentry : s.entries[overlay]? with
  | none => exact h
  | some entry =>
    rw [hentry] at hsound
    dsimp only at hsound ⊢
    split
    · rename_i hmem
      simp only [hmem, not_true_eq_false, decide_false, Bool.false_or, Bool.and_eq_true,
        Bool.not_eq_true', Bool.or_eq_true] at hsound
      obtain ⟨hitself, hresumed⟩ := hsound
      have hstacked : (overlay, entry) ∈ s.stacked := mem_stacked.mpr ⟨hmem, hentry⟩
      have hback : ∀ {focus : Option κ}, focus = entry.preFocus →
          ((s.detach overlay entry).fallsBack entry = true ∨
            ∃ o ∈ s.stacked, o.1 ≠ overlay ∧ o.2.preFocus = some entry.component) →
          (s.detach overlay entry).safe focus = true := by
        intro focus hfocus hused
        rw [hfocus]
        refine safe_detach h.nodup hstacked (h.preFocus _ hstacked) fun hown => ?_
        by_contra hgone
        refine absurd hitself (Bool.not_eq_false _ ▸ ?_)
        unfold fallsBackOnItself
        rw [Bool.and_eq_true, Bool.and_eq_true, Bool.or_eq_true]
        refine ⟨⟨by simpa using hown, by simpa using hgone⟩, hused.imp id fun hother => ?_⟩
        obtain ⟨o, ho, hne, hpre⟩ := hother
        exact List.any_eq_true.mpr ⟨o, ho, by simp [hne, hpre]⟩
      have hplaced : Placed (s.detach overlay entry) := by
        refine ⟨fun id hid => ?_, ?_, fun o ho => ?_⟩
        · rw [overlayStack_detach] at hid
          have hlength : (s.detach overlay entry).entries.length = s.entries.length := by
            show ((s.clearOverlayFocusRestoreFor overlay).entries.mapIdx _).length = _
            rw [List.length_mapIdx, (same_clearFor overlay).entries]
          rw [hlength]
          exact h.bound id (List.mem_of_mem_erase hid)
        · rw [overlayStack_detach]
          exact h.nodup.erase overlay
        · obtain ⟨e, he, hne, heq⟩ := (mem_detach h.nodup).mp ho
          rw [heq]
          split
          · rename_i hpre
            exact hback rfl (.inr ⟨_, he, hne, hpre⟩)
          · rename_i hpre
            exact safe_detach h.nodup hstacked (h.preFocus _ he) fun hown => absurd hown hpre
      refine hplaced.leave (fun hfocus => ?_) fun hfalls => ⟨hback rfl (.inl hfalls), ?_⟩
      · rw [focused_detach] at hfocus ⊢
        exact safe_detach h.nodup hstacked h.focus fun hown => absurd hown hfocus
      · obtain hnot | hresumed := hresumed
        · rw [hnot] at hfalls
          cases hfalls
        · exact hresumed
    · exact h

/-! ### Handles -/

/-- What changes no shape and no focus keeps the invariant. -/
theorem Inv.sameShape (h : Inv s) {t : TuiBase κ} (hsame : SameShape s t)
    (hfocus : t.focusedComponent = s.focusedComponent) : Inv t := by
  refine ⟨hsame.placed h.toPlaced, ?_⟩
  rw [hsame.safe, hfocus]
  exact h.focus

omit [DecidableEq κ] in
theorem SameShape.trans {t u : TuiBase κ} (h : SameShape s t) (h' : SameShape t u) :
    SameShape s u :=
  ⟨h'.overlayStack.trans h.overlayStack, h'.entries.trans h.entries⟩

omit [DecidableEq κ] in
theorem sameShape_raise (overlay : Nat) : SameShape s (s.raise overlay) :=
  ⟨rfl, (@sameShape_modifyEntry κ s overlay
    (fun entry => { entry with focusOrder := s.focusOrderCounter + 1 }) fun _ => rfl).entries⟩

/-- An overlay is hidden, or shown again. -/
theorem Inv.setHidden (h : Inv s) {overlay : Nat} {hidden : Bool}
    (hsound : s.sound (.setHidden overlay hidden) = true) : Inv (s.setHidden overlay hidden) := by
  unfold TuiBase.setHidden
  unfold sound at hsound
  dsimp only at hsound
  cases hentry : s.entries[overlay]? with
  | none => exact h
  | some entry =>
    rw [hentry] at hsound
    dsimp only at hsound ⊢
    have hmodified : SameShape s (s.modifyEntry overlay fun entry => { entry with hidden }) :=
      sameShape_modifyEntry overlay fun _ => rfl
    split
    · exact h
    · rename_i hchanged
      cases hidden with
      | true =>
        rw [if_pos rfl] at hsound ⊢
        have hsame := hmodified.trans (same_clearFor overlay).sameShape
        have hfocused : ((s.modifyEntry overlay fun entry =>
            { entry with hidden := true }).clearOverlayFocusRestoreFor overlay).focusedComponent
              = s.focusedComponent := focused_clearFor overlay
        refine (hsame.placed h.toPlaced).leave (fun _ => ?_) fun hfalls => ?_
        · rw [hsame.safe, hfocused]
          exact h.focus
        · rw [show TuiBase.fallsBack _ entry = true from hfalls, Bool.not_true, Bool.false_or,
            Bool.and_eq_true, Bool.or_eq_true] at hsound
          refine ⟨?_, hsound.2⟩
          obtain hmem | hsafe := hsound.1
          · rw [hsame.safe]
            refine h.preFocus (overlay, entry) (mem_stacked.mpr ⟨?_, hentry⟩)
            exact hsame.overlayStack ▸ of_decide_eq_true hmem
          · exact hsafe
      | false =>
        rw [if_neg Bool.false_ne_true] at hsound ⊢
        split
        · have hsame := hmodified.trans (sameShape_raise overlay)
          refine (hsame.placed h.toPlaced).setFocus_overlay ?_ true
          rw [hsame.isOverlay]
          simp only [Bool.or_eq_true, decide_eq_true_eq, Bool.not_eq_true'] at hsound
          obtain (hmem | hvisible) | hsafe := hsound
          · exact isOverlay_of_mem (mem_stacked.mpr (⟨hmem, hentry⟩ :
              (overlay, entry).1 ∈ s.overlayStack ∧ s.entries[(overlay, entry).1]? = some entry))
          · exact absurd hvisible hchanged
          · -- a component that was shown and is not removed is in the stack
            have hany : (s.entries.any fun e => e.component = entry.component) = true :=
              List.any_eq_true.mpr ⟨entry, List.mem_of_getElem? hentry, by simp⟩
            simpa [safe, isRemovedOverlay, hany] using hsafe
        · exact h.sameShape hmodified rfl

/-- An overlay is given the focus. -/
theorem Inv.focusOverlay (h : Inv s) (overlay : Nat) : Inv (s.focus overlay) := by
  unfold TuiBase.focus
  cases hentry : s.entries[overlay]? with
  | none => exact h
  | some entry =>
    dsimp only
    split
    · exact h
    · rename_i hvisible
      have hmem : overlay ∈ s.overlayStack := by
        by_contra hnot
        exact hvisible (by simp [hnot])
      have hsame := @sameShape_raise κ s overlay
      refine (hsame.placed h.toPlaced).setFocus_overlay ?_ true
      rw [hsame.isOverlay]
      exact isOverlay_iff.mpr ⟨(overlay, entry), mem_stacked.mpr ⟨hmem, hentry⟩, rfl⟩

omit [DecidableEq κ] in
theorem getTopmost_clearFor (overlay : Nat) :
    (s.clearOverlayFocusRestoreFor overlay).getTopmostVisibleOverlay =
    s.getTopmostVisibleOverlay := by
  have hsame := @same_clearFor κ s overlay
  rw [getTopmostVisibleOverlay, getTopmostVisibleOverlay, hsame.stacked, hsame.isOverlayVisible]

/-- An overlay gives the focus away. -/
theorem Inv.unfocus (h : Inv s) {overlay : Nat} {target : Option (Option κ)}
    (hallowed : s.allowed (.unfocus overlay target) = true)
    (hsound : s.sound (.unfocus overlay target) = true) : Inv (s.unfocus overlay target) := by
  unfold TuiBase.unfocus
  unfold sound at hsound
  dsimp only at hsound
  cases hentry : s.entries[overlay]? with
  | none => exact h
  | some entry =>
    rw [hentry] at hsound
    dsimp only at hsound ⊢
    split
    · exact h
    · rename_i hconcerned
      have hsame := @same_clearFor κ s overlay
      have hcleared : Inv (s.clearOverlayFocusRestoreFor overlay) :=
        h.sameShape hsame.sameShape (focused_clearFor overlay)
      cases hblocker : s.blocker? overlay with
      | some blockedBy =>
        cases target with
        | some target => exact h.sameShape ⟨rfl, rfl⟩ rfl
        | none => exact h.sameShape ⟨rfl, rfl⟩ rfl
      | none =>
        cases target with
        | some target =>
          refine hcleared.toPlaced.setFocus ?_ ?_ true
          · rw [hsame.safe]
            exact hallowed
          · simp only [Bool.or_eq_true, Bool.and_eq_true, decide_eq_true_eq,
              Bool.not_eq_true'] at hsound
            exact hsound.resolve_left fun hboth => hconcerned hboth
        | none =>
          dsimp only
          split
          · rename_i hfocused
            rw [getTopmost_clearFor]
            simp only [hfocused, hblocker, ne_eq, not_true_eq_false, decide_false, Bool.false_or,
              Option.isSome_none] at hsound
            have hback : s.getTopmostVisibleOverlay.any (fun top => top.1 ≠ overlay) = false →
                Inv ((s.clearOverlayFocusRestoreFor overlay).setFocus entry.preFocus) := by
              intro htop
              rw [htop, Bool.false_or, Bool.and_eq_true, Bool.or_eq_true] at hsound
              refine hcleared.toPlaced.setFocus ?_ hsound.2 true
              rw [hsame.safe]
              obtain hmem | hsafe := hsound.1
              · exact h.preFocus (overlay, entry)
                  (mem_stacked.mpr ⟨of_decide_eq_true hmem, hentry⟩)
              · exact hsafe
            cases htop : s.getTopmostVisibleOverlay with
            | none => exact hback (by rw [htop]; rfl)
            | some top =>
              dsimp only
              split
              · refine hcleared.toPlaced.setFocus_overlay ?_ true
                rw [hsame.isOverlay]
                exact isOverlay_of_mem (getTopmostVisibleOverlay_spec htop).1
              · rename_i hsameTop
                exact hback (by rw [htop]; simpa using hsameTop)
          · exact hcleared

/-! ## Input -/

/-- A focused overlay that is not visible gives the focus away. -/
theorem redirectFocus_shown (h : Inv s) (hsound : s.sound .input = true) :
    SameOverlays s s.redirectFocus ∧ s.shown s.redirectFocus.focusedComponent = true := by
  unfold sound at hsound
  dsimp only at hsound
  have hredirect := (Bool.and_eq_true_iff.mp hsound).1
  unfold redirectFocus
  cases hfocused : s.focusedComponent.bind fun c => s.stacked.find? fun o => o.2.component = c with
  | none =>
    refine ⟨.refl s, ?_⟩
    cases hfocus : s.focusedComponent with
    | none => rfl
    | some c =>
      -- the focus is on no overlay of the stack, and on no removed one
      rw [hfocus] at hfocused
      refine shown_of_safe (hfocus ▸ h.focus) (Bool.eq_false_iff.mpr fun hoverlay => ?_)
      obtain ⟨o, ho, hc⟩ := isOverlay_iff.mp hoverlay
      exact List.find?_eq_none.mp hfocused o ho (by simpa using hc)
  | some focusedOverlay =>
    rw [hfocused] at hredirect
    dsimp only at hredirect ⊢
    split
    · rename_i hvisible
      refine ⟨.refl s, ?_⟩
      obtain ⟨c, hc, hfind⟩ := Option.bind_eq_some_iff.mp hfocused
      have hcomponent : focusedOverlay.2.component = c := by simpa using List.find?_some hfind
      rw [hc, ← hcomponent]
      exact shown_of_visible (List.mem_of_find?_eq_some hfind) hvisible
    · rename_i hvisible
      cases htop : s.getTopmostVisibleOverlay with
      | some top =>
        obtain ⟨hmem, htopVisible⟩ := getTopmostVisibleOverlay_spec htop
        refine ⟨same_setFocusInternal _ true, shown_setFocusInternal ?_ ?_ true⟩
        · exact shown_of_visible hmem htopVisible
        · rw [resumed_of_isOverlay (isOverlay_of_mem hmem)]
          rfl
      | none =>
        rw [Bool.eq_false_iff.mpr hvisible, htop] at hredirect
        obtain ⟨hpreFocus, hresumed⟩ := Bool.and_eq_true_iff.mp hredirect
        exact ⟨same_setFocusInternal _ false, shown_setFocusInternal hpreFocus hresumed false⟩

/-- A focus that is on no overlay goes to what is restored. -/
theorem restoreFocus_shown (hfocus : s.shown s.focusedComponent = true)
    (hresumed : s.shown s.resumedByInput = true) :
    SameOverlays s s.restoreFocus ∧ s.shown s.restoreFocus.focusedComponent = true := by
  have hrestore : ∀ {overlay : Nat × OverlayStackEntry κ} {blocked : Option (κ × Resume κ)},
      s.getVisibleOverlayFocusRestore = some (overlay, blocked) →
      SameOverlays s (s.setFocus (some overlay.2.component)) ∧
        s.shown (s.setFocus (some overlay.2.component)).focusedComponent = true := by
    intro overlay blocked hstate
    obtain ⟨hmem, hvisible⟩ := getVisibleOverlayFocusRestore_spec hstate
    refine ⟨same_setFocusInternal _ true, shown_setFocusInternal ?_ ?_ true⟩
    · exact shown_of_visible hmem hvisible
    · rw [resumed_of_isOverlay (isOverlay_of_mem hmem)]
      rfl
  unfold restoreFocus
  unfold resumedByInput at hresumed
  split
  · exact ⟨.refl s, hfocus⟩
  · rename_i hoverlay
    rw [if_neg hoverlay] at hresumed
    split
    · rename_i overlay hstate
      exact hrestore hstate
    · rename_i overlay blockedBy resume hstate
      rw [hstate] at hresumed
      split
      · exact ⟨.refl s, hfocus⟩
      · rename_i hblocked
        cases resume with
        | restoreOverlay => exact hrestore hstate
        | focusTarget target =>
          dsimp only at hresumed ⊢
          rw [if_neg hblocked] at hresumed
          have hsame : SameOverlays s s.clearOverlayFocusRestore := ⟨rfl, rfl, rfl⟩
          refine ⟨hsame.trans (same_setFocusInternal _ true), ?_⟩
          rw [← hsame.shown]
          refine shown_setFocusInternal ?_ ?_ true
          · rw [hsame.shown]
            exact hresumed
          · -- nothing is left to resume
            have hnone : s.clearOverlayFocusRestore.resumed target = none := by
              unfold resumed
              split <;> rfl
            rw [hnone]
            rfl
    · exact ⟨.refl s, hfocus⟩

/-- Input goes to a component that is shown. -/
theorem handleTerminalInput_shown (h : Inv s) (hsound : s.sound .input = true) :
    SameOverlays s s.handleTerminalInput ∧
      s.shown s.handleTerminalInput.focusedComponent = true := by
  obtain ⟨hsame, hshown⟩ := redirectFocus_shown h hsound
  unfold sound at hsound
  dsimp only at hsound
  have hresumed := (Bool.and_eq_true_iff.mp hsound).2
  rw [← hsame.shown] at hshown
  obtain ⟨hsame', hshown'⟩ := restoreFocus_shown hshown hresumed
  rw [hsame.shown] at hshown'
  exact ⟨hsame.trans hsame', hshown'⟩

theorem Inv.input (h : Inv s) (hsound : s.sound .input = true) : Inv s.handleTerminalInput := by
  obtain ⟨hsame, hshown⟩ := handleTerminalInput_shown h hsound
  refine ⟨hsame.sameShape.placed h.toPlaced, ?_⟩
  rw [hsame.safe]
  exact safe_of_shown hshown

/-! ## Runs -/

/-- Every sound step keeps the invariant. -/
theorem Inv.step (h : Inv s) {action : Action κ} (hallowed : s.allowed action = true)
    (hsound : s.sound action = true) : Inv (s.step action) := by
  cases action with
  | showOverlay component nonCapturing conditional =>
      exact h.showOverlay component nonCapturing conditional
  | hide overlay => exact h.hide hsound
  | setHidden overlay hidden => exact h.setHidden hsound
  | focus overlay => exact h.focusOverlay overlay
  | unfocus overlay target => exact h.unfocus hallowed hsound
  | setFocus component => exact h.toPlaced.setFocus hallowed hsound true
  | hideOverlay =>
    show Inv s.hideOverlay
    unfold TuiBase.hideOverlay
    unfold sound at hsound
    dsimp only at hsound
    cases hlast : s.overlayStack.getLast? with
    | none => exact h
    | some overlay =>
      rw [hlast] at hsound
      exact h.hide hsound
  | outside visible mounted => exact h.sameShape ⟨rfl, rfl⟩ rfl
  | input => exact h.input hsound

/-- So does every run of sound steps. -/
theorem inv_run {actions : List (Action κ)} {t : TuiBase κ} (h : Inv s)
    (hrun : s.runSoundly actions = some t) : Inv t := by
  refine Runs.run_induction (fun s a t hs hstep => ?_) actions h hrun
  split at hstep
  · rename_i hboth
    obtain ⟨hallowed, hsound⟩ := Bool.and_eq_true_iff.mp hboth
    exact Option.some.inj hstep ▸ hs.step hallowed hsound
  · cases hstep

/-- Input goes to no overlay that is hidden, not visible or removed. -/
theorem input_not_hidden {mounted : κ → Bool} {visible : Nat → Bool} {actions : List (Action κ)}
    {t : TuiBase κ}
    (hrun : (initial mounted visible).runSoundly (actions ++ [.input]) = some t) {c : κ}
    (hfocus : t.focusedComponent = some c) : t.isHiddenOverlay c = false := by
  unfold runSoundly at hrun
  rw [List.foldlM_append] at hrun
  obtain ⟨s, hs, hinput⟩ := Option.bind_eq_some_iff.mp hrun
  have h := inv_run (inv_initial mounted visible) hs
  rw [List.foldlM_cons] at hinput
  obtain ⟨t', ht', heq⟩ := Option.bind_eq_some_iff.mp hinput
  obtain rfl := Option.some.inj heq
  split at ht'
  · rename_i hboth
    obtain ⟨hsame, hshown⟩ := handleTerminalInput_shown h (Bool.and_eq_true_iff.mp hboth).2
    obtain rfl := Option.some.inj ht'
    rw [show s.step .input = s.handleTerminalInput from rfl] at hfocus ⊢
    rw [hfocus, ← hsame.shown] at hshown
    simpa [shown] using hshown
  · cases ht'

/-- An overlay is hidden while another one is in front of it. -/
def coveredRun : List (Action Nat) :=
  [.showOverlay 0 false false, .showOverlay 1 false false, .setHidden 0 true, .input]

theorem input_not_hidden_covered :
    ((initial (fun _ => true) fun _ => true).runSoundly coveredRun).any
      (fun s => s.focusedComponent = some 1 && !s.isHiddenOverlay 1) = true := by
  obtain ⟨s, hs⟩ : ∃ s, (initial (fun _ => true) fun _ => true).runSoundly coveredRun = some s :=
    ⟨_, rfl⟩
  have hfocus : s.focusedComponent = some 1 := by
    obtain rfl := Option.some.inj hs
    rfl
  have hshown := @input_not_hidden Nat _ (fun _ => true) (fun _ => true)
    [.showOverlay 0 false false, .showOverlay 1 false false, .setHidden 0 true] s hs 1 hfocus
  rw [hs]
  simp [hfocus, hshown]

/-- The handle of a removed overlay hides it and shows it again. -/
def removedRun : List (Action Nat) :=
  [.showOverlay 0 false false, .hide 0, .setHidden 0 true, .setHidden 0 false, .input]

/-- An overlay is no longer visible, and falls back on one that is hidden. -/
def hiddenBehindRun : List (Action Nat) :=
  [.showOverlay 0 false false, .showOverlay 1 false true, .setHidden 0 true,
    .outside (fun _ => false) (fun _ => true), .input]

/-- The target of an `unfocus` is removed before it is resumed. -/
def staleTargetRun : List (Action Nat) :=
  [.showOverlay 0 false false, .showOverlay 1 false false, .setFocus (some 2),
    .unfocus 1 (some (some 0)), .hide 0, .setFocus none, .input]

/-- Input can go to an overlay that is hidden or removed. -/
theorem input_hidden :
    [removedRun, hiddenBehindRun, staleTargetRun].all (fun actions =>
      ((initial (fun _ => true) fun _ => true).run actions).any
        fun s => s.focusedComponent = some 0 && s.isHiddenOverlay 0) = true := by
  decide

end PiMono.Tui.TuiBase
