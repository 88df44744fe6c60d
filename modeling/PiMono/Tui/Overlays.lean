import Mathlib.Data.List.Basic

/-!
# Overlays

The overlay stack and the focus of `packages/tui/src/tui.ts`. Components are of any type; which
of them are mounted, and what the `visible` options of the overlays say, changes from outside.
-/

namespace PiMono.Tui

/-- `OverlayStackEntry` -/
structure OverlayStackEntry (κ : Type) where
  component : κ
  nonCapturing : Bool
  -- whether the overlay has the option `visible`
  conditional : Bool
  preFocus : Option κ
  hidden : Bool
  focusOrder : Nat

/-- `OverlayBlockedFocusResume` -/
inductive Resume (κ : Type) where
  | restoreOverlay
  | focusTarget (target : Option κ)

def Resume.resumesTarget {κ : Type} : Resume κ → Bool
  | .restoreOverlay => false
  | .focusTarget _ => true

/-- `OverlayFocusRestoreState`; overlays are named by the order in which they were shown. -/
inductive OverlayFocusRestore (κ : Type) where
  | inactive
  | eligible (overlay : Nat)
  | blocked (overlay : Nat) (blockedBy : κ) (resume : Resume κ)

/-- What a `TuiBase` has of overlays and focus. `entries` are all overlays that were shown;
`mounted` and `visible` are what `isComponentMounted` and the `visible` options say. -/
structure TuiBase (κ : Type) where
  entries : List (OverlayStackEntry κ)
  overlayStack : List Nat
  focusedComponent : Option κ
  overlayFocusRestore : OverlayFocusRestore κ
  focusOrderCounter : Nat
  mounted : κ → Bool
  visible : Nat → Bool

namespace TuiBase

variable {κ : Type} [DecidableEq κ]

/-- No overlays yet. -/
def initial (mounted : κ → Bool) (visible : Nat → Bool) : TuiBase κ where
  entries := []
  overlayStack := []
  focusedComponent := none
  overlayFocusRestore := .inactive
  focusOrderCounter := 0
  mounted := mounted
  visible := visible

/-- The overlays of the stack. -/
def stacked (s : TuiBase κ) : List (Nat × OverlayStackEntry κ) :=
  s.overlayStack.filterMap fun id => s.entries[id]?.map fun entry => (id, entry)

/-- `isOverlayVisible` -/
def isOverlayVisible (s : TuiBase κ) (overlay : Nat × OverlayStackEntry κ) : Bool :=
  !overlay.2.hidden && (!overlay.2.conditional || s.visible overlay.1)

/-- `this.overlayStack.some((entry) => entry.component === component)` -/
def isOverlay (s : TuiBase κ) (component : κ) : Bool :=
  s.stacked.any fun o => o.2.component = component

/-- `getTopmostVisibleOverlay` -/
def getTopmostVisibleOverlay (s : TuiBase κ) : Option (Nat × OverlayStackEntry κ) :=
  s.stacked.foldl
    (fun topmost overlay =>
      if overlay.2.nonCapturing || !s.isOverlayVisible overlay then topmost
      else match topmost with
        | none => some overlay
        | some top => if overlay.2.focusOrder > top.2.focusOrder then some overlay else topmost)
    none

/-! ## Restoring the focus -/

/-- `clearOverlayFocusRestore` -/
def clearOverlayFocusRestore (s : TuiBase κ) : TuiBase κ :=
  { s with overlayFocusRestore := .inactive }

/-- `restoreState.status !== "inactive" && restoreState.overlay === overlay` -/
def restores (s : TuiBase κ) (overlay : Nat) : Bool :=
  match s.overlayFocusRestore with
  | .inactive => false
  | .eligible o => o = overlay
  | .blocked o _ _ => o = overlay

/-- `clearOverlayFocusRestoreFor` -/
def clearOverlayFocusRestoreFor (s : TuiBase κ) (overlay : Nat) : TuiBase κ :=
  if s.restores overlay then s.clearOverlayFocusRestore else s

/-- An overlay of the stack that is visible. -/
def visibleOverlay? (s : TuiBase κ) (overlay : Nat) : Option (Nat × OverlayStackEntry κ) :=
  s.stacked.find? fun o => o.1 = overlay ∧ s.isOverlayVisible o

/-- `getVisibleOverlayFocusRestore`, with the overlay that it names. -/
def getVisibleOverlayFocusRestore (s : TuiBase κ) :
    Option ((Nat × OverlayStackEntry κ) × Option (κ × Resume κ)) :=
  match s.overlayFocusRestore with
  | .inactive => none
  | .eligible overlay => (s.visibleOverlay? overlay).map fun o => (o, none)
  | .blocked overlay blockedBy resume =>
    (s.visibleOverlay? overlay).map fun o => (o, some (blockedBy, resume))

/-- The loop of `isOverlayFocusAncestor`; the overlays of the components that it has visited are
left out. -/
def isAncestor (component : κ) :
    Nat → List (Nat × OverlayStackEntry κ) → Option κ → Bool
  | _, _, none => false
  | 0, _, some current => current = component
  | fuel + 1, overlays, some current =>
    if current = component then true
    else isAncestor component fuel (overlays.filter fun o => o.2.component ≠ current)
      ((overlays.find? fun o => o.2.component = current).bind fun o => o.2.preFocus)

/-- `isOverlayFocusAncestor`; every overlay is visited once at most. -/
def isOverlayFocusAncestor (s : TuiBase κ) (entry : OverlayStackEntry κ) (component : κ) : Bool :=
  isAncestor component (s.stacked.length + 1) s.stacked entry.preFocus

/-- `resolveBlockedOverlayFocusResume` -/
def resolveBlockedOverlayFocusResume (s : TuiBase κ) (overlay : Nat × OverlayStackEntry κ)
    (resume : Resume κ) : Option κ × TuiBase κ :=
  match resume with
  | .restoreOverlay => (some overlay.2.component, s)
  | .focusTarget target => (target, s.clearOverlayFocusRestore)

/-- `setFocusInternal`, up to where the focus moves: the next focus, with the state that
restores. -/
def nextFocus (s : TuiBase κ) (component : Option κ) (clear : Bool) : Option κ × TuiBase κ :=
  let previousFocus := s.focusedComponent
  let previousFocusedOverlay := previousFocus.bind fun previous =>
    s.stacked.find? fun o => o.2.component = previous ∧ s.isOverlayVisible o
  let restoreState := s.getVisibleOverlayFocusRestore
  match component with
  | some next =>
    if s.isOverlay next then (some next, s)
    else match restoreState with
      | some (overlay, some (blockedBy, resume)) =>
        if previousFocus = some blockedBy then
          if resume.resumesTarget || !s.mounted blockedBy then
            s.resolveBlockedOverlayFocusResume overlay resume
          else (some next, { s with overlayFocusRestore := .blocked overlay.1 next resume })
        else match previousFocusedOverlay with
          | some previous =>
            if overlay.1 = previous.1 && !s.isOverlayFocusAncestor previous.2 next then
              (some next,
                { s with overlayFocusRestore := .blocked previous.1 next .restoreOverlay })
            else (some next, s)
          | none => (some next, s)
      | some (overlay, none) =>
        match previousFocusedOverlay with
        | some previous =>
          if overlay.1 = previous.1 && !s.isOverlayFocusAncestor previous.2 next then
            (some next, { s with overlayFocusRestore := .blocked previous.1 next .restoreOverlay })
          else (some next, s)
        | none => (some next, s)
      | none => (some next, s)
  | none =>
    match restoreState with
    | some (overlay, some (blockedBy, resume)) =>
      if previousFocus = some blockedBy then s.resolveBlockedOverlayFocusResume overlay resume
      else (none, if clear then s.clearOverlayFocusRestore else s)
    | _ => (none, if clear then s.clearOverlayFocusRestore else s)

/-- `setFocusInternal`; `clear` is the policy. -/
def setFocusInternal (s : TuiBase κ) (component : Option κ) (clear : Bool) : TuiBase κ :=
  let (next, s) := s.nextFocus component clear
  let focusedOverlay := next.bind fun next =>
    s.stacked.find? fun o => o.2.component = next ∧ s.isOverlayVisible o
  { s with
    focusedComponent := next
    overlayFocusRestore := match focusedOverlay with
      | some overlay => .eligible overlay.1
      | none => s.overlayFocusRestore }

/-- `setFocus` -/
def setFocus (s : TuiBase κ) (component : Option κ) : TuiBase κ := s.setFocusInternal component true

/-! ## Showing and hiding -/

/-- An entry is changed. -/
def modifyEntry (s : TuiBase κ) (overlay : Nat) (f : OverlayStackEntry κ → OverlayStackEntry κ) :
    TuiBase κ :=
  { s with entries := s.entries.modify overlay f }

/-- `entry.focusOrder = ++this.focusOrderCounter` -/
def raise (s : TuiBase κ) (overlay : Nat) : TuiBase κ :=
  { s.modifyEntry overlay fun entry => { entry with focusOrder := s.focusOrderCounter + 1 } with
    focusOrderCounter := s.focusOrderCounter + 1 }

/-- `showOverlay` -/
def showOverlay (s : TuiBase κ) (component : κ) (nonCapturing conditional : Bool) : TuiBase κ :=
  let entry : OverlayStackEntry κ :=
    { component, nonCapturing, conditional, preFocus := s.focusedComponent, hidden := false,
      focusOrder := s.focusOrderCounter + 1 }
  let overlay := s.entries.length
  let s := { s with
    entries := s.entries ++ [entry]
    overlayStack := s.overlayStack ++ [overlay]
    focusOrderCounter := s.focusOrderCounter + 1 }
  if !nonCapturing && s.isOverlayVisible (overlay, entry) then s.setFocus (some component) else s

/-- The focus moves to the topmost visible overlay, or back to where it was. -/
def fallBack (s : TuiBase κ) (preFocus : Option κ) : TuiBase κ :=
  match s.getTopmostVisibleOverlay with
  | some top => s.setFocus (some top.2.component)
  | none => s.setFocus preFocus

/-- `retargetOverlayPreFocus` -/
def retargetOverlayPreFocus (s : TuiBase κ) (overlay : Nat) (removed : OverlayStackEntry κ) :
    TuiBase κ :=
  { s with entries := s.entries.mapIdx fun id entry =>
      if id ∈ s.overlayStack ∧ id ≠ overlay ∧ entry.preFocus = some removed.component then
        { entry with preFocus := removed.preFocus }
      else entry }

/-- An overlay is taken from the stack, as `hide` and `hideOverlay` do. -/
def detach (s : TuiBase κ) (overlay : Nat) (entry : OverlayStackEntry κ) : TuiBase κ :=
  let s := (s.clearOverlayFocusRestoreFor overlay).retargetOverlayPreFocus overlay entry
  { s with overlayStack := s.overlayStack.erase overlay }

/-- The rest of `hide` and `hideOverlay`: the focus does not stay on the overlay. -/
def leave (s : TuiBase κ) (entry : OverlayStackEntry κ) : TuiBase κ :=
  if s.focusedComponent = some entry.component then s.fallBack entry.preFocus else s

/-- `hide` of a handle -/
def hide (s : TuiBase κ) (overlay : Nat) : TuiBase κ :=
  match s.entries[overlay]? with
  | some entry => if overlay ∈ s.overlayStack then (s.detach overlay entry).leave entry else s
  | none => s

/-- `hideOverlay` -/
def hideOverlay (s : TuiBase κ) : TuiBase κ :=
  match s.overlayStack.getLast? with
  | some overlay => s.hide overlay
  | none => s

/-- `setHidden` of a handle -/
def setHidden (s : TuiBase κ) (overlay : Nat) (hidden : Bool) : TuiBase κ :=
  match s.entries[overlay]? with
  | none => s
  | some entry =>
    if entry.hidden = hidden then s
    else
      let s := s.modifyEntry overlay fun entry => { entry with hidden }
      let entry := { entry with hidden }
      if hidden then (s.clearOverlayFocusRestoreFor overlay).leave entry
      else if !entry.nonCapturing && s.isOverlayVisible (overlay, entry) then
        (s.raise overlay).setFocus (some entry.component)
      else s

/-- `focus` of a handle -/
def focus (s : TuiBase κ) (overlay : Nat) : TuiBase κ :=
  match s.entries[overlay]? with
  | none => s
  | some entry =>
    if overlay ∉ s.overlayStack || !s.isOverlayVisible (overlay, entry) then s
    else (s.raise overlay).setFocus (some entry.component)

/-- The component that blocks the restore of an overlay, while it has the focus. -/
def blocker? (s : TuiBase κ) (overlay : Nat) : Option κ :=
  match s.overlayFocusRestore with
  | .blocked o blockedBy _ =>
    if o = overlay ∧ s.focusedComponent = some blockedBy then some blockedBy else none
  | _ => none

/-- `unfocus` of a handle; the target is that of its options. -/
def unfocus (s : TuiBase κ) (overlay : Nat) (target : Option (Option κ)) : TuiBase κ :=
  match s.entries[overlay]? with
  | none => s
  | some entry =>
    let isFocused := s.focusedComponent = some entry.component
    if ¬isFocused ∧ s.restores overlay = false then s
    else match s.blocker? overlay with
      | some blockedBy => match target with
        | some target =>
          { s with overlayFocusRestore := .blocked overlay blockedBy (.focusTarget target) }
        | none => s.clearOverlayFocusRestore
      | none =>
        let s := s.clearOverlayFocusRestoreFor overlay
        match target with
        | some target => s.setFocus target
        | none =>
          if isFocused then
            match s.getTopmostVisibleOverlay with
            | some top =>
              if top.1 ≠ overlay then s.setFocus (some top.2.component)
              else s.setFocus entry.preFocus
            | none => s.setFocus entry.preFocus
          else s

/-! ## Input -/

/-- `handleTerminalInput`, where a focused overlay is no longer visible. -/
def redirectFocus (s : TuiBase κ) : TuiBase κ :=
  match s.focusedComponent.bind fun c => s.stacked.find? fun o => o.2.component = c with
  | some focusedOverlay =>
    if s.isOverlayVisible focusedOverlay then s
    else match s.getTopmostVisibleOverlay with
      | some top => s.setFocus (some top.2.component)
      | none => s.setFocusInternal focusedOverlay.2.preFocus false
  | none => s

/-- `handleTerminalInput`, where the focus is on no overlay. -/
def restoreFocus (s : TuiBase κ) : TuiBase κ :=
  if (s.focusedComponent.map s.isOverlay).getD false then s
  else match s.getVisibleOverlayFocusRestore with
    | some (overlay, none) => s.setFocus (some overlay.2.component)
    | some (overlay, some (blockedBy, resume)) =>
      if s.focusedComponent = some blockedBy then s
      else match resume with
        | .restoreOverlay => s.setFocus (some overlay.2.component)
        | .focusTarget target => s.clearOverlayFocusRestore.setFocus target
    | none => s

/-- `handleTerminalInput`, for input that is passed to the focused component: the state behind the
checks, in which the component is given the input. -/
def handleTerminalInput (s : TuiBase κ) : TuiBase κ := s.redirectFocus.restoreFocus

/-! ## Runs -/

inductive Action (κ : Type) where
  | showOverlay (component : κ) (nonCapturing conditional : Bool)
  | hide (overlay : Nat)
  | setHidden (overlay : Nat) (hidden : Bool)
  | focus (overlay : Nat)
  | unfocus (overlay : Nat) (target : Option (Option κ))
  | setFocus (component : Option κ)
  | hideOverlay
  -- what the `visible` options say, and what is mounted
  | outside (visible : Nat → Bool) (mounted : κ → Bool)
  | input

def step (s : TuiBase κ) : Action κ → TuiBase κ
  | .showOverlay component nonCapturing conditional =>
    s.showOverlay component nonCapturing conditional
  | .hide overlay => s.hide overlay
  | .setHidden overlay hidden => s.setHidden overlay hidden
  | .focus overlay => s.focus overlay
  | .unfocus overlay target => s.unfocus overlay target
  | .setFocus component => s.setFocus component
  | .hideOverlay => s.hideOverlay
  | .outside visible mounted => { s with visible, mounted }
  | .input => s.handleTerminalInput

/-- The component of overlays that were shown, none of which is visible in the stack now. -/
def isHiddenOverlay (s : TuiBase κ) (component : κ) : Bool :=
  (s.entries.any fun entry => entry.component = component) &&
    !s.stacked.any fun o => o.2.component = component && s.isOverlayVisible o

/-- The component of overlays that were shown, all of which are removed. -/
def isRemovedOverlay (s : TuiBase κ) (component : κ) : Bool :=
  (s.entries.any fun entry => entry.component = component) && !s.isOverlay component

/-- A focus that is on no removed overlay. -/
def safe (s : TuiBase κ) (focus : Option κ) : Bool := focus.all fun c => !s.isRemovedOverlay c

/-- A focus that is on no hidden or removed overlay. -/
def shown (s : TuiBase κ) (focus : Option κ) : Bool := focus.all fun c => !s.isHiddenOverlay c

/-- The targets of `setFocus` and `unfocus` are no components of removed overlays. -/
def allowed (s : TuiBase κ) : Action κ → Bool
  | .setFocus component => s.safe component
  | .unfocus _ (some target) => s.safe target
  | _ => true

/-! ### Where the focus is not checked -/

/-- The target that `setFocusInternal` resumes instead of the given component. -/
def resumed (s : TuiBase κ) (component : Option κ) : Option κ :=
  if (component.map s.isOverlay).getD false then none
  else match s.getVisibleOverlayFocusRestore with
    | some (_, some (blockedBy, .focusTarget target)) =>
      if s.focusedComponent = some blockedBy then target else none
    | _ => none

/-- The focus is on the component, and falls back on its `preFocus`. -/
def fallsBack (s : TuiBase κ) (entry : OverlayStackEntry κ) : Bool :=
  s.focusedComponent = some entry.component && s.getTopmostVisibleOverlay.isNone

/-- An overlay is removed whose `preFocus` is its own component, which the focus or another overlay
would fall back on. -/
def fallsBackOnItself (s : TuiBase κ) (overlay : Nat) (entry : OverlayStackEntry κ) : Bool :=
  entry.preFocus = some entry.component && !(s.detach overlay entry).isOverlay entry.component &&
    ((s.detach overlay entry).fallsBack entry ||
      s.stacked.any fun o => o.1 ≠ overlay && o.2.preFocus = some entry.component)

/-- The removal of an overlay brings the focus to no removed overlay. -/
def hidesSoundly (s : TuiBase κ) (overlay : Nat) : Bool :=
  match s.entries[overlay]? with
  | none => true
  | some entry => overlay ∉ s.overlayStack ||
    (!s.fallsBackOnItself overlay entry &&
      (!(s.detach overlay entry).fallsBack entry ||
        (s.detach overlay entry).safe ((s.detach overlay entry).resumed entry.preFocus)))

/-- The target that `handleTerminalInput` resumes. -/
def resumedByInput (s : TuiBase κ) : Option κ :=
  if (s.focusedComponent.map s.isOverlay).getD false then none
  else match s.getVisibleOverlayFocusRestore with
    | some (_, some (blockedBy, .focusTarget target)) =>
      if s.focusedComponent = some blockedBy then none else target
    | _ => none

/-- The step brings the focus to no removed overlay, and input to no hidden one, where the code does
not check it: through the handle of a removed overlay, through a target of `unfocus` that is
resumed later, and through a `preFocus`. -/
def sound (s : TuiBase κ) : Action κ → Bool
  | .setFocus component => s.safe (s.resumed component)
  | .hide overlay => s.hidesSoundly overlay
  | .hideOverlay => (s.overlayStack.getLast?.map s.hidesSoundly).getD true
  | .setHidden overlay hidden =>
    match s.entries[overlay]? with
    | none => true
    | some entry =>
      if hidden then
        let s := (s.modifyEntry overlay fun entry =>
          { entry with hidden }).clearOverlayFocusRestoreFor
          overlay
        !s.fallsBack entry ||
          ((overlay ∈ s.overlayStack || s.safe entry.preFocus) && s.safe (s.resumed entry.preFocus))
      else overlay ∈ s.overlayStack || !entry.hidden || s.safe (some entry.component)
  | .unfocus overlay target =>
    match s.entries[overlay]? with
    | none => true
    | some entry =>
      let cleared := s.clearOverlayFocusRestoreFor overlay
      match target with
      | some target => (s.focusedComponent ≠ some entry.component && !s.restores overlay) ||
        cleared.safe (cleared.resumed target)
      | none => s.focusedComponent ≠ some entry.component || (s.blocker? overlay).isSome ||
        (s.getTopmostVisibleOverlay.any fun top => top.1 ≠ overlay) ||
          ((overlay ∈ s.overlayStack || s.safe entry.preFocus) &&
            cleared.safe (cleared.resumed entry.preFocus))
  | .input =>
    (match s.focusedComponent.bind fun c => s.stacked.find? fun o => o.2.component = c with
      | some focusedOverlay => s.isOverlayVisible focusedOverlay ||
        s.getTopmostVisibleOverlay.isSome ||
          (s.shown focusedOverlay.2.preFocus && s.shown (s.resumed focusedOverlay.2.preFocus))
      | none => true) && s.redirectFocus.shown s.redirectFocus.resumedByInput
  | _ => true

/-- A run. -/
def run (s : TuiBase κ) (actions : List (Action κ)) : Option (TuiBase κ) :=
  actions.foldlM (fun s a => if s.allowed a then some (s.step a) else none) s

/-- A run in which the focus goes to no removed overlay unchecked. -/
def runSoundly (s : TuiBase κ) (actions : List (Action κ)) : Option (TuiBase κ) :=
  actions.foldlM (fun s a => if s.allowed a && s.sound a then some (s.step a) else none) s

end TuiBase

end PiMono.Tui
