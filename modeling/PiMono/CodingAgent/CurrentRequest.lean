import PiMono.CodingAgent.Checkpoint
import PiMono.CodingAgent.CompactionCoverage

/-!
# The current request of a checkpoint

A compaction summarizes the entries between the first kept entry of the compaction
before and its own first kept entry. The request it shows is that of the last user
message in between (`latestUserRequest_window`), and what the checkpoint before
showed is not read again: `latestUserRequest_window_iff` says when this is the
latest request of the path. Over runs, a checkpoint shows the latest request as
long as every compaction has it in its window (`current_request_survives`).
-/

namespace PiMono

/-- What a user message says; `none` for every other entry. -/
def FileEntry.userText? (e : FileEntry) : Option JsString :=
  (getMessageFromEntryForCompaction e).bind AgentMessage.userText?

/-- What the latest user message with text says. -/
def latestRequest (entries : List FileEntry) : Option JsString :=
  entries.reverse.findSome? fun e => e.userText?.filter (· ≠ [])

/-- The `Current Request` section of a checkpoint shows a request. -/
def ShowsRequest (summary request : JsString) : Prop :=
  ∃ shown rest, shownRequest request = some shown ∧
    summary = js "## Current Request\n\n- " ++ shown ++ js "\n\n## Files" ++ rest

/-! ## The text of the checkpoint -/

theorem joinWith_cons (separator text : JsString) (texts : List JsString) :
    joinWith separator (text :: texts) = text ++ (texts.flatMap (separator ++ ·)) := by
  induction texts generalizing text with
  | nil => simp [joinWith]
  | cons next texts ih =>
    have hnext := ih next
    rw [joinWith] at hnext ⊢
    rw [List.intersperse_cons_cons, List.flatten_cons, List.flatten_cons, hnext]
    simp

/-- Where the request stands in a checkpoint. -/
theorem summary_eq (p : CompactionPreparation) : ∃ rest, p.compactDeterministically.summary
    = js "## Current Request\n\n- "
      ++ (latestUserRequest p.sourceMessages).getD CompactionPreparation.noRequest
      ++ js "\n\n## Files" ++ rest := by
  obtain ⟨later, hlater⟩ : ∃ later, p.laterSections = js "## Files" :: later := by
    rw [CompactionPreparation.laterSections]
    exact ⟨_, List.filter_cons_of_pos (by decide)⟩
  have hheading : js "## Current Request\n\n- " = js "## Current Request" ++ js "\n\n" ++
    js "- " := by
    decide
  have hfiles : js "\n\n## Files" = js "\n\n" ++ js "## Files" := by decide
  simp only [CompactionPreparation.compactDeterministically, hlater, joinWith_cons,
    List.flatMap_cons, hheading, hfiles, List.append_assoc]
  exact ⟨_, rfl⟩

/-! ## The window of a compaction -/

section Window

variable {α β : Type}

/-- The last element that has a value. -/
theorem findSome?_reverse_eq_some {f : α → Option β} {xs : List α} {b : β} :
    xs.reverse.findSome? f = some b ↔
      ∃ pre a post, xs = pre ++ a :: post ∧ f a = some b ∧ ∀ x ∈ post, f x = none := by
  rw [List.findSome?_eq_some_iff]
  constructor
  · rintro ⟨post, a, pre, hxs, ha, hpost⟩
    refine ⟨pre.reverse, a, post.reverse, ?_, ha, by simpa using hpost⟩
    rw [← List.reverse_reverse xs, hxs]
    simp
  · rintro ⟨pre, a, post, rfl, ha, hpost⟩
    exact ⟨post.reverse, a, pre.reverse, by simp, ha, by simpa using hpost⟩

theorem findSome?_filterMap {γ : Type} (g : α → Option γ) (f : γ → Option β) (xs : List α) :
    (xs.filterMap g).findSome? f = xs.findSome? fun x => (g x).bind f := by
  induction xs with
  | nil => rfl
  | cons x xs ih =>
    cases h : g x with
    | none => rw [List.filterMap_cons_none h, List.findSome?_cons, h, ih, Option.bind_none]
    | some y =>
      rw [List.filterMap_cons_some h, List.findSome?_cons, List.findSome?_cons, h, ih,
        Option.bind_some]

end Window

/-- The entries in front of the new first kept entry have no request, or the last
one of them stands at or behind the first entry that the compaction before kept,
and no user message without text behind it. -/
def RequestInWindow (path : List FileEntry) (settings : CompactionSettings) : Prop :=
  let cutPoint :=
    findCutPoint path (boundaryStart path) path.length settings.keepRecentTokens
  let earlier := path.take cutPoint.firstKeptEntryIndex
  (∀ e ∈ earlier, e.userText?.getD [] = []) ∨
    ∃ pre e post, earlier = pre ++ e :: post ∧ boundaryStart path ≤ pre.length ∧
      e.userText?.getD [] ≠ [] ∧ ∀ x ∈ post, x.userText? = none

theorem shownRequest_eq_none {request : JsString} (h : shownRequest request = none) :
    request = [] := by
  rw [shownRequest] at h
  split at h
  · cases h
  · split at h
    · assumption
    · cases h

theorem shownRequest_nil : shownRequest [] = none := by decide

/-- What the code shows is the last user message of the window. -/
theorem latestUserRequest_window (path : List FileEntry) (start firstKept : Nat) :
    latestUserRequest (messagesBetween path start firstKept)
      = (((path.take firstKept).drop start).reverse.findSome? FileEntry.userText?).bind
          shownRequest := by
  rw [latestUserRequest, messagesBetween, ← List.filterMap_reverse, findSome?_filterMap]
  rfl

/-- **One compaction**: the request in the window is the latest request, exactly if
that one stands in the window and no user message without text behind it. -/
theorem latestUserRequest_window_iff (path : List FileEntry) (settings : CompactionSettings)
    {firstKept : Nat} (hcut : (findCutPoint path (boundaryStart path) path.length
      settings.keepRecentTokens).firstKeptEntryIndex = firstKept) :
    (∀ request, latestRequest (path.take firstKept) = some request →
      latestUserRequest (messagesBetween path (boundaryStart path) firstKept)
        = shownRequest request) ↔ RequestInWindow path settings := by
  rw [RequestInWindow, hcut, latestUserRequest_window]
  generalize path.take firstKept = earlier
  generalize boundaryStart path = start
  constructor
  · intro h
    cases hlatest : latestRequest earlier with
    | none =>
      left
      intro e he
      rw [latestRequest, List.findSome?_eq_none_iff] at hlatest
      have hnone := hlatest e (List.mem_reverse.mpr he)
      cases htext : e.userText? with
      | none => rfl
      | some text =>
        rw [htext, Option.filter_eq_none_iff] at hnone
        simpa using hnone text rfl
    | some request =>
      right
      have hshown := h request hlatest
      obtain ⟨-, r, -, -, hr, -⟩ := findSome?_reverse_eq_some.mp hlatest
      have hrequest : request ≠ [] := by simpa using (Option.filter_eq_some_iff.mp hr).2
      -- the window shows something, so its last user message has text
      cases hfound : ((earlier.drop start).reverse.findSome? FileEntry.userText?) with
      | none =>
        rw [hfound, Option.bind_none] at hshown
        exact absurd (shownRequest_eq_none hshown.symm) hrequest
      | some text =>
        rw [hfound, Option.bind_some] at hshown
        obtain ⟨pre, e, post, hsplit, he, hpost⟩ := findSome?_reverse_eq_some.mp hfound
        have hlt : start < earlier.length := by
          by_contra hge
          rw [List.drop_eq_nil_of_le (by omega)] at hsplit
          simp at hsplit
        refine ⟨earlier.take start ++ pre, e, post, ?_, ?_, ?_, hpost⟩
        · rw [List.append_assoc, ← hsplit, List.take_append_drop]
        · rw [List.length_append, List.length_take]
          omega
        · rw [he, Option.getD_some]
          rintro rfl
          rw [shownRequest_nil] at hshown
          exact hrequest (shownRequest_eq_none hshown.symm)
  · rintro (hnone | ⟨pre, e, post, rfl, hstart, he, hpost⟩) request hlatest
    · obtain ⟨pre, r, post, rfl, hr, -⟩ := findSome?_reverse_eq_some.mp hlatest
      obtain ⟨hr, hrequest⟩ := Option.filter_eq_some_iff.mp hr
      have hblank := hnone r (by simp)
      rw [hr, Option.getD_some] at hblank
      simp [hblank] at hrequest
    · obtain ⟨text, htext⟩ : ∃ text, e.userText? = some text := by
        cases h : e.userText? with
        | none => simp [h] at he
        | some text => exact ⟨text, rfl⟩
      rw [htext, Option.getD_some] at he
      have hrequest : latestRequest (pre ++ e :: post) = some text :=
        findSome?_reverse_eq_some.mpr ⟨pre, e, post, rfl, by simp [htext, he],
          fun x hx => by rw [hpost x hx, Option.filter_none]⟩
      have hfound : ((pre ++ e :: post).drop start).reverse.findSome? FileEntry.userText?
          = some text :=
        findSome?_reverse_eq_some.mpr
          ⟨pre.drop start, e, post, List.drop_append_of_le_length hstart, htext, hpost⟩
      rw [hrequest] at hlatest
      rw [hfound, Option.bind_some, Option.some.inj hlatest]

/-! ## Runs -/

/-- The entry `appendCompaction` makes of a checkpoint; there are no details but the
file lists, and no extension took part. -/
def CompactionResult.entry (result : CompactionResult) (id : JsString) (parentId : Option JsString)
    (timestamp : JsString) : FileEntry :=
  let paths (files : List JsString) : JsValue := .arr (files.map .str)
  .create id parentId timestamp
    (.compaction result.summary result.firstKeptEntryId (.ofNat result.tokensBefore)
      (some (.object [(js "readFiles", paths result.readFiles),
        (js "modifiedFiles", paths result.modifiedFiles)])) none (some false))

/-- The path of a session with a compaction more. -/
def CompactionPreparation.appendedTo (p : CompactionPreparation) (path : List FileEntry)
    (id timestamp : JsString) : List FileEntry :=
  path ++ [p.compactDeterministically.entry id (path.getLast?.map (·.id)) timestamp]

/-- The paths that a session goes through: entries that are no compactions are
appended, and compactions whose path and settings meet `guard`. -/
inductive CompactionRun (guard : List FileEntry → CompactionSettings → Prop)
    (start : List FileEntry) : List FileEntry → Prop
  | start : CompactionRun guard start start
  | append {path : List FileEntry} {e : FileEntry} : CompactionRun guard start path →
    e.isCompaction = false → RootToLeaf (path ++ [e]) → CompactionRun guard start (path ++ [e])
  | compact {path : List FileEntry} {settings : CompactionSettings} {p : CompactionPreparation}
    {id timestamp : JsString} : CompactionRun guard start path → guard path settings →
    prepareCompaction path settings = some (some p) →
    RootToLeaf (p.appendedTo path id timestamp) →
    CompactionRun guard start (p.appendedTo path id timestamp)

/-- The newest checkpoint shows the latest request in front of its first kept entry. -/
def CurrentRequestShown (start path : List FileEntry) : Prop :=
  ∀ c, getLatestCompactionEntry path = some c → c ∉ start → ∀ request,
    latestRequest (path.takeWhile (·.id ≠ c.firstKeptEntryId)) = some request →
    ShowsRequest (c.strD "summary") request

/-- The first kept entry of a preparation is the one at the cut. -/
theorem prepareCompaction_cut {path : List FileEntry} {settings : CompactionSettings}
    {p : CompactionPreparation} (hp : prepareCompaction path settings = some (some p)) :
    some p.firstKeptEntryId = path[(findCutPoint path (boundaryStart path) path.length
      settings.keepRecentTokens).firstKeptEntryIndex]?.map (·.id) := by
  rw [prepareCompaction] at hp
  split at hp
  · cases hp
  obtain ⟨context, -, hp⟩ := Option.map_eq_some_iff.mp hp
  dsimp only at hp
  generalize findCutPoint path (boundaryStart path) path.length settings.keepRecentTokens
    = cut at hp ⊢
  split at hp
  · cases hp
  rename_i id hid
  rw [(Option.filter_eq_some_iff.mp hid).1]
  cases hsplit : cut.isSplitTurn <;>
    simp only [hsplit, Bool.false_eq_true, if_false, if_true] at hp <;> split at hp
  all_goals cases hp
  all_goals rfl

/-- With distinct ids, the entries in front of the `i`-th are those up to its id. -/
theorem takeWhile_getElem {path : List FileEntry} (hnd : (path.map (·.id)).Nodup) {i : Nat}
    (hi : i < path.length) : path.takeWhile (·.id ≠ path[i].id) = path.take i := by
  have hsplit : path.takeWhile (·.id ≠ path[i].id) ++ keptFrom path[i].id path
      = path.take i ++ path.drop i := by
    rw [keptFrom, List.takeWhile_append_dropWhile, List.take_append_drop]
  rw [keptFrom_getElem hnd hi] at hsplit
  exact List.append_cancel_right hsplit

/-- What is appended behind an entry changes nothing in front of it. -/
theorem takeWhile_concat {path : List FileEntry} {id : JsString} (h : id ∈ path.map (·.id))
    (e : FileEntry) : (path ++ [e]).takeWhile (·.id ≠ id) = path.takeWhile (·.id ≠ id) := by
  rw [List.takeWhile_append, if_neg]
  intro hlen
  obtain ⟨x, hx, hid⟩ := List.mem_map.mp h
  have hall : path.takeWhile (·.id ≠ id) = path :=
    (List.takeWhile_prefix _).eq_of_length hlen
  have := List.mem_takeWhile_imp (hall.symm ▸ hx)
  simp [hid] at this

section Entry

variable (result : CompactionResult) (id : JsString) (parentId : Option JsString)
  (timestamp : JsString)

theorem CompactionResult.entry_isCompaction :
    (result.entry id parentId timestamp).isCompaction = true := by
  simp [CompactionResult.entry, EntryBody.type]

theorem CompactionResult.entry_firstKeptEntryId :
    (result.entry id parentId timestamp).firstKeptEntryId = result.firstKeptEntryId := by
  simp [CompactionResult.entry]

theorem CompactionResult.entry_summary :
    (result.entry id parentId timestamp).strD "summary" = result.summary := by
  simp [CompactionResult.entry, FileEntry.strD, JsValue.strField?, FileEntry.create_get?,
    EntryBody.fields]

end Entry

/-- The newest checkpoint of a run keeps an entry of the path, and shows the latest
request in front of it. -/
def CurrentRequestKept (start path : List FileEntry) : Prop :=
  ∀ c, getLatestCompactionEntry path = some c → c ∉ start →
    c.firstKeptEntryId ∈ path.map (·.id) ∧ ∀ request,
      latestRequest (path.takeWhile (·.id ≠ c.firstKeptEntryId)) = some request →
      ShowsRequest (c.strD "summary") request

theorem CurrentRequestKept.append {start path : List FileEntry} {e : FileEntry}
    (h : CurrentRequestKept start path) (he : e.isCompaction = false) :
    CurrentRequestKept start (path ++ [e]) := by
  intro c hc hnew
  have hlatest : getLatestCompactionEntry (path ++ [e]) = getLatestCompactionEntry path := by
    simp [getLatestCompactionEntry, he]
  rw [hlatest] at hc
  obtain ⟨hkept, hshows⟩ := h c hc hnew
  refine ⟨?_, ?_⟩
  · rw [List.map_append]
    exact List.mem_append_left _ hkept
  · rw [takeWhile_concat hkept]
    exact hshows

/-- **One checkpoint**: a compaction with the latest request in its window shows it. -/
theorem currentRequestKept_compact {path : List FileEntry} (hnd : (path.map (·.id)).Nodup)
    {settings : CompactionSettings} {p : CompactionPreparation}
    (hp : prepareCompaction path settings = some (some p)) (hwindow : RequestInWindow path settings)
    (start : List FileEntry) (id timestamp : JsString) :
    CurrentRequestKept start (p.appendedTo path id timestamp) := by
  intro c hc _
  rw [CompactionPreparation.appendedTo,
    latest_append_compaction path (CompactionResult.entry_isCompaction ..)] at hc
  obtain rfl := Option.some.inj hc
  obtain ⟨firstKept, hlt, -, hid, hsource, -⟩ := prepareCompaction_spec hp
  have hcut : (findCutPoint path (boundaryStart path) path.length
      settings.keepRecentTokens).firstKeptEntryIndex = firstKept := by
    obtain ⟨e, he, heid⟩ := Option.map_eq_some_iff.mp (prepareCompaction_cut hp).symm
    obtain ⟨hlt', rfl⟩ := List.getElem?_eq_some_iff.mp he
    have htake := takeWhile_getElem hnd hlt'
    rw [heid, hid, takeWhile_getElem hnd hlt] at htake
    have hlen := congrArg List.length htake
    rw [List.length_take, List.length_take] at hlen
    omega
  have hkept : path[firstKept].id ∈ path.map (·.id) :=
    List.mem_map_of_mem (List.getElem_mem hlt)
  have hfirst : p.compactDeterministically.firstKeptEntryId = path[firstKept].id := hid
  rw [CompactionResult.entry_firstKeptEntryId, CompactionResult.entry_summary, hfirst]
  constructor
  · rw [CompactionPreparation.appendedTo, List.map_append]
    exact List.mem_append_left _ hkept
  · intro request hlatest
    rw [CompactionPreparation.appendedTo, takeWhile_concat hkept, takeWhile_getElem hnd hlt]
      at hlatest
    have hshown := (latestUserRequest_window_iff path settings hcut).mpr hwindow request hlatest
    have hrequest : request ≠ [] := by
      obtain ⟨-, e, -, -, he, -⟩ := findSome?_reverse_eq_some.mp hlatest
      simpa using (Option.filter_eq_some_iff.mp he).2
    cases hsome : shownRequest request with
    | none => exact absurd (shownRequest_eq_none hsome) hrequest
    | some shown =>
      obtain ⟨rest, hrest⟩ := summary_eq p
      refine ⟨shown, rest, hsome, ?_⟩
      rw [hrest, CompactionPreparation.sourceMessages, hsource, hshown, hsome, Option.getD_some]

/-- **The current request survives compaction** in every run whose compactions have
the latest request in their window. -/
theorem current_request_survives {start path : List FileEntry} (hstart : RootToLeaf start)
    (h : CompactionRun RequestInWindow start path) : CurrentRequestShown start path := by
  have hkept : RootToLeaf path ∧ CurrentRequestKept start path := by
    induction h with
    | start =>
      refine ⟨hstart, fun c hc hnew => absurd ?_ hnew⟩
      rw [getLatestCompactionEntry] at hc
      exact List.mem_reverse.mp (List.mem_of_find?_eq_some hc)
    | append _ he hpath ih => exact ⟨hpath, ih.2.append he⟩
    | compact _ hwindow hp hpath ih =>
      exact ⟨hpath, currentRequestKept_compact ih.1.nodup hp hwindow start _ _⟩
  intro c hc hnew
  exact (hkept.2 c hc hnew).2

/-! ## One long turn -/

theorem RootToLeaf.concat {path : List FileEntry} {e : FileEntry} (h : RootToLeaf path)
    (hparent : e.parentLink = path.getLast?.map (·.id)) (hid : e.id ∉ path.map (·.id)) :
    RootToLeaf (path ++ [e]) := by
  constructor
  · rw [isPath_snoc]
    exact ⟨h.isPath, by rw [hparent, Option.or_none]⟩
  · rw [List.map_append]
    exact List.nodup_append.mpr ⟨h.nodup, by simp, by
      intro x hx y hy
      rw [List.map_singleton, List.mem_singleton] at hy
      rintro rfl
      exact hid (hy ▸ hx)⟩

theorem RootToLeaf.appendedTo {path : List FileEntry} (h : RootToLeaf path)
    (p : CompactionPreparation) {id : JsString} (timestamp : JsString)
    (hlast : path.getLast?.map (·.id) ≠ some []) (hid : id ∉ path.map (·.id)) :
    RootToLeaf (p.appendedTo path id timestamp) := by
  refine h.concat ?_ ?_
  · rw [CompactionResult.entry, FileEntry.parentLink, FileEntry.create_parentId]
    cases hx : path.getLast?.map (·.id) with
    | none => rfl
    | some x =>
      rw [hx] at hlast
      exact Option.filter_some_pos (by simpa using hlast)
  · rwa [CompactionResult.entry, FileEntry.create_id]

/-- A message of a turn, as an entry. -/
def turnEntry (id : String) (parentId : Option String) (role text : String) : FileEntry :=
  .create (js id) (parentId.map js) (js "t")
    (.message (.object [(js "role", .str (js role)),
      (js "content", .arr [.object [(js "type", .str (js "text")), (js "text", .str (js text))]])]))

/-- The start of a turn. -/
def longTurn : List FileEntry :=
  [turnEntry "a" none "user" "Fix the login redirect.",
    turnEntry "b" (some "a") "assistant" "Reading.",
      turnEntry "c" (some "b") "assistant" "Editing."]

/-- The last message is kept, all else is summarized. -/
def keepLast : CompactionSettings := ⟨true, 0, 1⟩

/-- The turn is compacted and goes on. -/
def longTurnLater : List FileEntry :=
  (((prepareCompaction longTurn keepLast).join.map
    (·.appendedTo longTurn (js "d") (js "t"))).getD [])
    ++ [turnEntry "e" (some "d") "assistant" "Testing."]

theorem rootToLeaf_longTurn : RootToLeaf longTurn := by
  constructor
  · simp [longTurn, turnEntry, IsPath, FileEntry.parentLink]
    decide
  · simp [longTurn, turnEntry]

theorem longTurn_prepared : ∃ p, prepareCompaction longTurn keepLast = some (some p) ∧
    longTurnLater = p.appendedTo longTurn (js "d") (js "t")
      ++ [turnEntry "e" (some "d") "assistant" "Testing."] := by
  have hsome : (prepareCompaction longTurn keepLast).join.isSome = true := by decide
  obtain ⟨p, hp⟩ := Option.isSome_iff_exists.mp hsome
  refine ⟨p, Option.join_eq_some_iff.mp hp, ?_⟩
  rw [longTurnLater, hp]
  rfl

theorem run_longTurn {guard : List FileEntry → CompactionSettings → Prop}
    (hguard : guard longTurn keepLast) :
    RootToLeaf longTurnLater ∧ CompactionRun guard longTurn longTurnLater := by
  obtain ⟨p, hp, heq⟩ := longTurn_prepared
  have hcompacted : RootToLeaf (p.appendedTo longTurn (js "d") (js "t")) :=
    rootToLeaf_longTurn.appendedTo p (js "t") (by decide) (by simp [longTurn, turnEntry])
  have hlater : RootToLeaf longTurnLater := by
    rw [heq]
    refine hcompacted.concat ?_ ?_
    · simp [CompactionPreparation.appendedTo, CompactionResult.entry, turnEntry,
        FileEntry.parentLink]
      decide
    · simp [CompactionPreparation.appendedTo, CompactionResult.entry, turnEntry, longTurn]
  refine ⟨hlater, ?_⟩
  rw [heq] at hlater ⊢
  exact .append (.compact .start hguard hp hcompacted) (by simp [turnEntry, EntryBody.type]) hlater

/-- The request of a turn is shown by the first of two compactions. -/
theorem current_request_survives_once : ∃ c request,
    getLatestCompactionEntry longTurnLater = some c ∧
      latestRequest (longTurnLater.takeWhile (·.id ≠ c.firstKeptEntryId)) = some request ∧
      ShowsRequest (c.strD "summary") request := by
  have hwindow : RequestInWindow longTurn keepLast :=
    Or.inr ⟨[], longTurn.head (by simp [longTurn]),
      [turnEntry "b" (some "a") "assistant" "Reading."],
      by decide⟩
  obtain ⟨c, hc, hnew, hlatest⟩ : ∃ c, getLatestCompactionEntry longTurnLater = some c ∧
      c ∉ longTurn ∧ latestRequest (longTurnLater.takeWhile (·.id ≠ c.firstKeptEntryId))
        = some (js "Fix the login redirect.") := by
    have h : ((getLatestCompactionEntry longTurnLater).any fun c => c ∉ longTurn ∧
        latestRequest (longTurnLater.takeWhile (·.id ≠ c.firstKeptEntryId))
          = some (js "Fix the login redirect.")) = true := by decide
    obtain ⟨c, hc, h⟩ := (Option.any_eq_true _ _).mp h
    exact ⟨c, hc, of_decide_eq_true h⟩
  exact ⟨c, _, hc, hlatest,
    current_request_survives rootToLeaf_longTurn (run_longTurn hwindow).2 c hc hnew _ hlatest⟩

/-- The second compaction of a turn shows no request. -/
theorem current_request_survives_not : ¬∀ start path, RootToLeaf start →
    CompactionRun (fun _ _ => True) start path → CurrentRequestShown start path := by
  intro hall
  have h : ((prepareCompaction longTurnLater keepLast).join.any fun p =>
      latestUserRequest p.sourceMessages = none ∧ latestRequest (longTurnLater.takeWhile
        (·.id ≠ p.firstKeptEntryId)) = some (js "Fix the login redirect.") ∧
      p.firstKeptEntryId ∈ longTurnLater.map (·.id)) = true := by decide
  obtain ⟨p, hp, h⟩ := (Option.any_eq_true _ _).mp h
  obtain ⟨hnone, hlatest, hkept⟩ := of_decide_eq_true h
  obtain ⟨hpath, hrun⟩ := @run_longTurn (fun _ _ => True) trivial
  have hnext : RootToLeaf (p.appendedTo longTurnLater (js "f") (js "t")) :=
    hpath.appendedTo p (js "t") (by decide) (by decide)
  have hshown := hall _ _ rootToLeaf_longTurn
    (hrun.compact trivial (Option.join_eq_some_iff.mp hp) hnext)
  have hplain : ∀ e ∈ longTurn, e.isCompaction = false := by decide
  obtain ⟨shown, rest, hshows, hsummary⟩ := hshown _
    (latest_append_compaction _ (CompactionResult.entry_isCompaction ..))
    (fun hmem => by
      have hfalse := hplain _ hmem
      rw [CompactionResult.entry_isCompaction] at hfalse
      cases hfalse) _
    (by
      rw [CompactionPreparation.appendedTo, CompactionResult.entry_firstKeptEntryId]
      exact (congrArg latestRequest (takeWhile_concat hkept _)).trans hlatest)
  -- the section of the second checkpoint begins otherwise than the request
  obtain ⟨rest', hrest⟩ := summary_eq p
  rw [CompactionResult.entry_summary, hrest, hnone, Option.getD_none, List.append_assoc,
    List.append_assoc, List.append_assoc, List.append_assoc] at hsummary
  have hfirst := congrArg List.head? (List.append_cancel_left hsummary)
  have hrequest : shown = js "Fix the login redirect." := by
    have heq : shownRequest (js "Fix the login redirect.") =
      some (js "Fix the login redirect.") := by
      decide
    rw [heq] at hshows
    exact (Option.some.inj hshows).symm
  simp only [hrequest, List.head?_append] at hfirst
  have hne : (js "Fix the login redirect.").head? = some 0x46 ∧
      CompactionPreparation.noRequest.head? = some 0x4E := by decide
  rw [hne.1, hne.2] at hfirst
  cases hfirst

end PiMono
