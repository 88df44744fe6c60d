import Mathlib.Algebra.Order.BigOperators.Group.List
import PiMono.CodingAgent.CompactionCoverage

/-!
# The cut point of a compaction

`findCutPoint` (`compaction.ts:314-467`) walks back until the budget is reached, takes
the next valid cut point, or the first where there is none, and moves back over entries
that add nothing to the context. `chosenCut` is the cut before that last move.

`findCutPoint_keeps_calls` is about tool results and their calls,
`findCutPoint_splitTurn_iff` about split turns, and `findCutPoint_budget_iff` about the
tokens that are kept.
-/

namespace PiMono

variable {entries : List FileEntry} {startIndex endIndex : Nat} {keepRecentTokens : Int}

/-- The entry adds a message to the context. -/
def FileEntry.visible (e : FileEntry) : Bool := !(sessionEntryToContextMessages e).isEmpty

/-- The cut before the scan back over metadata; `none` without valid cut points. -/
def chosenCut (entries : List FileEntry) (startIndex endIndex : Nat) (keepRecentTokens : Int) :
    Option Nat :=
  match findValidCutPoints entries startIndex endIndex with
  | [] => none
  | first :: others =>
    some (match budgetIndex entries startIndex keepRecentTokens (endIndex - startIndex) 0 with
      | some i => ((first :: others).find? (i ≤ ·)).getD first
      | none => first)

/-- The first entry from `index` on that adds to the context. -/
def firstVisible (entries : List FileEntry) (index : Nat) : Option Nat :=
  (List.range' index (entries.length - index)).find? fun i => entries[i]?.any (·.visible)

/-! ## The scan back -/

/-- A compaction has a message in the context. -/
theorem visible_of_isCompaction {e : FileEntry} (h : e.isCompaction = true) : e.visible = true := by
  have htype : e.type = some (js "compaction") := of_decide_eq_true h
  have hbody : ∃ summary kept tokens details usage fromHook,
      e.body? = some (.compaction summary kept tokens details usage fromHook) := by
    rw [FileEntry.body?, htype]
    exact ⟨_, _, _, _, _, _, rfl⟩
  obtain ⟨summary, kept, tokens, details, usage, fromHook, hbody⟩ := hbody
  rw [FileEntry.visible, sessionEntryToContextMessages, hbody]
  rfl

/-- The scan stops at entries that add to the context. -/
theorem overMetadata_step (e : FileEntry) :
    (!e.isCompaction && (sessionEntryToContextMessages e).isEmpty) = !e.visible := by
  rw [FileEntry.visible, Bool.not_not]
  cases hc : e.isCompaction with
  | false => rfl
  | true =>
    have := visible_of_isCompaction hc
    rw [FileEntry.visible, Bool.not_eq_true'] at this
    rw [this]
    rfl

/-- What the scan passes adds nothing to the context. -/
theorem overMetadata_passed : ∀ {cutIndex : Nat} {j : Nat},
    overMetadata entries startIndex cutIndex ≤ j → j < cutIndex →
      ∃ e, entries[j]? = some e ∧ e.visible = false
  | 0, j, _, hj => absurd hj (Nat.not_lt_zero j)
  | cutIndex + 1, j, hlow, hj => by
    rw [overMetadata] at hlow
    split at hlow
    · rename_i hback
      obtain ⟨e, he, hinvisible⟩ := (Option.any_eq_true _ _).mp hback.2
      rw [overMetadata_step, Bool.not_eq_true'] at hinvisible
      by_cases hlast : j = cutIndex
      · exact ⟨e, hlast ▸ he, hinvisible⟩
      · exact overMetadata_passed hlow (by omega)
    · omega

/-- Where it moves, the entry before the cut adds nothing. -/
theorem overMetadata_lt_iff {cutIndex : Nat} : overMetadata entries startIndex cutIndex < cutIndex ↔
    startIndex < cutIndex ∧ entries[cutIndex - 1]?.any (!·.visible) = true := by
  cases cutIndex with
  | zero =>
    rw [overMetadata]
    simp
  | succ cutIndex =>
    have hcond : entries[cutIndex]?.any (fun previous =>
        !previous.isCompaction && (sessionEntryToContextMessages previous).isEmpty)
        = entries[cutIndex]?.any (!·.visible) := by
      simp only [overMetadata_step]
    rw [overMetadata, hcond, Nat.add_sub_cancel]
    constructor
    · intro hlt
      by_contra hnot
      rw [if_neg hnot] at hlt
      omega
    · intro hback
      rw [if_pos hback]
      have := (overMetadata_bounds entries (Nat.le_of_lt_succ hback.1)).2
      omega

/-! ## The cut -/

/-- `findCutPoint`, from the cut it chose. -/
theorem findCutPoint_of_chosen {cut : Nat}
    (h : chosenCut entries startIndex endIndex keepRecentTokens = some cut) :
    let cutIndex := overMetadata entries startIndex cut
    let startsTurn := entries[cutIndex]?.any isTurnStartEntry
    let turnStartIndex := if startsTurn then none else findTurnStartIndex entries
      cutIndex startIndex
    findCutPoint entries startIndex endIndex keepRecentTokens
      = ⟨cutIndex, turnStartIndex, !startsTurn && turnStartIndex.isSome⟩ := by
  cases hcuts : findValidCutPoints entries startIndex endIndex with
  | nil =>
    rw [chosenCut, hcuts] at h
    cases h
  | cons first others =>
    rw [chosenCut, hcuts] at h
    rw [findCutPoint, hcuts]
    cases h
    rfl

theorem findCutPoint_of_none
    (h : chosenCut entries startIndex endIndex keepRecentTokens = none) :
    findCutPoint entries startIndex endIndex keepRecentTokens = ⟨startIndex, none, false⟩ := by
  cases hcuts : findValidCutPoints entries startIndex endIndex with
  | nil => rw [findCutPoint, hcuts]
  | cons first others =>
    rw [chosenCut, hcuts] at h
    cases h

theorem chosenCut_isSome_iff :
    (chosenCut entries startIndex endIndex keepRecentTokens).isSome = true ↔
    findValidCutPoints entries startIndex endIndex ≠ [] := by
  rw [chosenCut]
  split
  · rename_i hcuts
    simp [hcuts]
  · rename_i first others hcuts
    simp [hcuts]

theorem chosenCut_mem {cut : Nat}
    (h : chosenCut entries startIndex endIndex keepRecentTokens = some cut) :
    cut ∈ findValidCutPoints entries startIndex endIndex := by
  rw [chosenCut] at h
  split at h
  · cases h
  · rename_i first others hcuts
    rw [hcuts]
    obtain rfl := Option.some.inj h
    split
    · rename_i i _
      cases hfind : (first :: others).find? (i ≤ ·) with
      | none => exact List.mem_cons_self
      | some cut => exact List.mem_of_find?_eq_some hfind
    · exact List.mem_cons_self

/-- A valid cut point is an entry of the window that adds a message to the context, and
no tool result. -/
theorem cutPoint_entry {cut : Nat} (h : cut ∈ findValidCutPoints entries startIndex endIndex) :
    startIndex ≤ cut ∧ cut < endIndex ∧ ∃ e, entries[cut]? = some e ∧ e.visible = true ∧
      (sessionEntryToContextMessages e).any isCutPointMessage = true := by
  obtain ⟨hlow, hhigh⟩ := findValidCutPoints_bounds h
  obtain ⟨e, he, hvisible⟩ := findValidCutPoints_visible h
  obtain ⟨-, hvalid⟩ := List.mem_filter.mp h
  rw [he, Option.any_some, Bool.and_eq_true] at hvalid
  refine ⟨hlow, hhigh, e, he, ?_, hvalid.2⟩
  rw [FileEntry.visible, Bool.not_eq_true', List.isEmpty_eq_false_iff]
  exact hvisible

/-- The first visible entry of what is kept is the cut that was chosen. -/
theorem firstVisible_cut {cut : Nat}
    (h : chosenCut entries startIndex endIndex keepRecentTokens = some cut) :
    firstVisible entries (overMetadata entries startIndex cut) = some cut := by
  obtain ⟨hlow, -, e, he, hvisible, -⟩ := cutPoint_entry (chosenCut_mem h)
  obtain ⟨-, hback⟩ := overMetadata_bounds entries hlow
  have hlength : cut < entries.length := (List.getElem?_eq_some_iff.mp he).1
  rw [firstVisible, List.find?_range'_eq_some]
  refine ⟨?_, List.mem_range'_1.mpr ⟨hback, by omega⟩, fun j hj hjcut => ?_⟩
  · rw [he, Option.any_some, hvisible]
  · obtain ⟨e', he', hinvisible⟩ := overMetadata_passed hj hjcut
    rw [he', Option.any_some, hinvisible]
    rfl

/-! ## Tool results and their calls -/

namespace FileEntry

/-- `entry.message.role === "toolResult"` -/
def isToolResult (e : FileEntry) : Bool := e.messageRole? = some (js "toolResult")

/-- `entry.message.toolCallId` -/
def toolCallId? (e : FileEntry) : Option JsString :=
  match e.body? with
  | some (.message m) => m.strField? (js "toolCallId")
  | _ => none

/-- The ids of the tool calls in an assistant message. -/
def toolCallIds (e : FileEntry) : List JsString :=
  match e.body? with
  | some (.message m) =>
    if m.strField? (js "role") = some (js "assistant") then
      (((((m.get? (js "content")).bind JsValue.items?).getD []).filter
        fun block => block.strField? (js "type") = some (js "toolCall")).filterMap
          (·.strField? (js "id")))
    else []
  | _ => []

theorem not_cutPoint_of_isToolResult {e : FileEntry} (h : e.isToolResult = true) :
    (sessionEntryToContextMessages e).any isCutPointMessage = false := by
  have hrole : e.messageRole? = some (js "toolResult") := of_decide_eq_true h
  rw [messageRole?] at hrole
  rw [sessionEntryToContextMessages]
  split at hrole
  · rename_i message hbody
    rw [hbody]
    have hkept : (message.set (js "content") (.arr [])).strField? (js "role")
        = message.strField? (js "role") := by
      rw [JsValue.strField?, JsValue.get?_set_of_ne (by decide)]
      rfl
    have hresult : Role.ofText (some (js "toolResult")) = .toolResult := by decide
    dsimp only
    split
    · simp [isCutPointMessage, AgentMessage.role, hkept, hrole, hresult]
    · simp [isCutPointMessage, AgentMessage.role, hrole, hresult]
  · cases hrole

end FileEntry

/-- The entry at `a` issued the call that the tool result at `j` answers, with nothing but
tool results and entries outside the context between them. -/
structure IssuedBy (entries : List FileEntry) (a j : Nat) : Prop where
  before : a < j
  call : ∃ e e' id, entries[a]? = some e ∧ entries[j]? = some e' ∧ e'.isToolResult = true ∧
    e'.toolCallId? = some id ∧ id ∈ e.toolCallIds
  between : ∀ k, a < k → k < j → ∃ e, entries[k]? = some e ∧
    (e.isToolResult = true ∨ e.visible = false)

/-- A cut never falls between a call and its result. -/
theorem le_of_issuedBy {cut a j : Nat} (hcut : cut ∈ findValidCutPoints entries startIndex endIndex)
    (h : IssuedBy entries a j) (hj : overMetadata entries startIndex cut ≤ j) :
    overMetadata entries startIndex cut ≤ a := by
  obtain ⟨hlow, -, e, he, hvisible, hmessage⟩ := cutPoint_entry hcut
  obtain ⟨-, hback⟩ := overMetadata_bounds entries hlow
  have hnot : ∀ e', entries[cut]? = some e' → e'.isToolResult = false := by
    intro e' he'
    obtain rfl : e = e' := Option.some.inj (he.symm.trans he')
    by_contra htool
    rw [FileEntry.not_cutPoint_of_isToolResult (by simpa using htool)] at hmessage
    cases hmessage
  by_contra hlt
  rw [Nat.not_le] at hlt
  obtain ⟨-, e', -, -, he', htool, -, -⟩ := h.call
  rcases Nat.lt_trichotomy j cut with hjcut | rfl | hjcut
  · -- before the cut that was chosen there is only metadata
    obtain ⟨e'', he'', hinvisible⟩ := overMetadata_passed hj hjcut
    obtain rfl : e' = e'' := Option.some.inj (he'.symm.trans he'')
    have hstored : e'.visible = true := by
      have hrole : e'.messageRole? = some (js "toolResult") := of_decide_eq_true htool
      rw [FileEntry.messageRole?] at hrole
      split at hrole
      · rename_i message hbody
        rw [FileEntry.visible, sessionEntryToContextMessages, hbody]
        dsimp only
        split <;> rfl
      · cases hrole
    rw [hinvisible] at hstored
    cases hstored
  · rw [hnot e' he'] at htool
    cases htool
  · obtain ⟨e'', he'', hor⟩ := h.between cut (by omega) hjcut
    obtain rfl : e = e'' := Option.some.inj (he.symm.trans he'')
    rcases hor with htool' | hinvisible
    · rw [hnot e he] at htool'
      cases htool'
    · rw [hvisible] at hinvisible
      cases hinvisible

/-- **No kept tool result loses its call**, in a window of whole groups of a path in which
every result follows its call. -/
theorem findCutPoint_keeps_calls
    (hpath : ∀ j e, entries[j]? = some e → e.isToolResult = true → ∃ a, IssuedBy entries a j)
    (hwindow : ∀ a j, IssuedBy entries a j →
      (startIndex ≤ a ∧ a < endIndex ↔ startIndex ≤ j ∧ j < endIndex))
    {firstKept : Nat}
    (hcut : (findCutPoint entries startIndex endIndex keepRecentTokens).firstKeptEntryIndex
      = firstKept) {j : Nat} {e : FileEntry} (hj : entries[j]? = some e)
    (htool : e.isToolResult = true) (hkept : firstKept ≤ j) (hend : j < endIndex) :
    (∃ a, IssuedBy entries a j) ∧ ∀ a, IssuedBy entries a j → firstKept ≤ a := by
  refine ⟨hpath j e hj htool, fun a ha => ?_⟩
  cases hchosen : chosenCut entries startIndex endIndex keepRecentTokens with
  | none =>
    rw [findCutPoint_of_none hchosen] at hcut
    subst hcut
    exact ((hwindow a j ha).mpr ⟨hkept, hend⟩).1
  | some cut =>
    rw [findCutPoint_of_chosen hchosen] at hcut
    subst hcut
    exact le_of_issuedBy (chosenCut_mem hchosen) ha hkept

/-- An entry that stores a message. -/
def messageEntry (id : String) (message : List (JsString × JsValue)) : FileEntry :=
  .create (js id) none [] (.message (.object message))

def userEntry (id text : String) : FileEntry :=
  messageEntry id [(js "role", .str (js "user")), (js "content", .str (js text))]

def assistantEntry (id text : String) : FileEntry :=
  messageEntry id [(js "role", .str (js "assistant")), (js "content",
    .arr [.object [(js "type", .str (js "text")), (js "text", .str (js text))],
      .object [(js "type", .str (js "toolCall")), (js "id", .str (js id)),
        (js "name", .str (js "t")), (js "arguments", .object [])]])]

def toolResultEntry (id call text : String) : FileEntry :=
  messageEntry id [(js "role", .str (js "toolResult")), (js "toolCallId", .str (js call)),
    (js "content", .str (js text))]

/-- A prompt, a call, its result and a prompt: four tokens are reached at the call. -/
def calledPath : List FileEntry :=
  [userEntry "a" "hi", assistantEntry "b" "ok", toolResultEntry "c" "b" "12345678",
    userEntry "d" "x"]

theorem calledPath_issued : IssuedBy calledPath 1 2 where
  before := by decide
  call := ⟨_, _, js "b", rfl, rfl, by decide, by decide, by decide⟩
  between := by omega

/-- With a budget of four tokens the call is the cut. -/
theorem findCutPoint_keeps_calls_calledPath : (∃ a, IssuedBy calledPath a 2) ∧
    ∀ a, IssuedBy calledPath a 2 → 1 ≤ a := by
  have hlength : calledPath.length = 4 := rfl
  have hcut : (findCutPoint calledPath 0 4 4).firstKeptEntryIndex = 1 := by decide
  have hresults : ∀ j < 4, (calledPath[j]?.any (·.isToolResult)) = true → j = 2 := by decide
  refine findCutPoint_keeps_calls ?_ ?_ hcut rfl (by decide) (by decide) (by decide)
  · intro j e hj htool
    have hlt := (List.getElem?_eq_some_iff.mp hj).1
    obtain rfl := hresults j hlt (by rw [hj, Option.any_some, htool])
    exact ⟨1, calledPath_issued⟩
  · intro a j h
    obtain ⟨e, e', id, ha, hj, -⟩ := h.call
    have hlt := (List.getElem?_eq_some_iff.mp hj).1
    have hbefore := h.before
    omega

/-! ## Split turns -/

/-- The last turn start in front of an entry. -/
def turnStartBefore (entries : List FileEntry) (startIndex index : Nat) : Option Nat :=
  (List.range' startIndex (index - startIndex)).reverse.find? fun i =>
    entries[i]?.any isTurnStartEntry

theorem findTurnStartIndex_eq (entries : List FileEntry) (entryIndex startIndex : Nat) :
    findTurnStartIndex entries entryIndex startIndex
      = turnStartBefore entries startIndex (entryIndex + 1) := rfl

/-- An entry that starts no turn is passed over. -/
theorem turnStartBefore_succ {index : Nat} (h : entries[index]?.any isTurnStartEntry = false) :
    turnStartBefore entries startIndex (index + 1) = turnStartBefore entries startIndex index := by
  rw [turnStartBefore, turnStartBefore]
  by_cases hle : startIndex ≤ index
  · have hsplit : List.range' startIndex (index + 1 - startIndex)
        = List.range' startIndex (index - startIndex) ++ [index] := by
      have hcount : index + 1 - startIndex = (index - startIndex) + 1 := by omega
      rw [hcount, List.range'_concat]
      congr 2
      omega
    rw [hsplit, List.reverse_append, List.reverse_singleton, List.singleton_append,
      List.find?_cons_of_neg (by simp [h])]
  · have hnone : index + 1 - startIndex = 0 ∧ index - startIndex = 0 := by omega
    rw [hnone.1, hnone.2]

theorem turnStartBefore_passed {index cut : Nat} (hle : index ≤ cut)
    (h : ∀ i, index ≤ i → i < cut → entries[i]?.any isTurnStartEntry = false) :
    turnStartBefore entries startIndex cut = turnStartBefore entries startIndex index := by
  induction cut, hle using Nat.le_induction with
  | base => rfl
  | succ cut hle ih =>
    rw [turnStartBefore_succ (h cut hle (Nat.lt_succ_self cut)),
      ih fun i hlow hhigh => h i hlow (by omega)]

theorem not_turnStart_of_invisible {e : FileEntry} (h : e.visible = false) :
    isTurnStartEntry e = false := by
  rw [FileEntry.visible, Bool.not_eq_false', List.isEmpty_iff] at h
  rw [isTurnStartEntry, h, List.any_nil, Bool.and_false]

/-- A result reports the split of the turn at the visible entry `v`. -/
structure SplitTurnExact (entries : List FileEntry) (startIndex : Nat) (result : CutPointResult)
    (v : Nat) : Prop where
  isSplitTurn : result.isSplitTurn = true ↔
    entries[v]?.any isTurnStartEntry = false ∧ (turnStartBefore entries startIndex v).isSome = true
  turnStart : result.isSplitTurn = true → result.turnStartIndex =
    turnStartBefore entries startIndex v

/-- An entry that changes the model. -/
def modelChangeEntry (id : String) : FileEntry :=
  .create (js id) none [] (.modelChange (js "p") (js "m"))

/-- Two turns, with a change of the model in front of the second. -/
def changedPath : List FileEntry :=
  [userEntry "a" "hi", assistantEntry "b" "ok", modelChangeEntry "c", userEntry "d" "12345678"]

/-- The estimated tokens of the entries from one index to another. -/
def tokensBetween (entries : List FileEntry) (i endIndex : Nat) : Nat :=
  (((entries.take endIndex).drop i).map entryTokens).sum

/-- The estimated tokens behind an entry and the tool results that directly follow it. -/
def tokensAfter (entries : List FileEntry) (v endIndex : Nat) : Nat :=
  ((((entries.take endIndex).drop (v + 1)).dropWhile
    fun e => e.isToolResult || !e.visible).map entryTokens).sum

/-- From the end of the window, the tokens reach the budget at `i`. -/
structure ReachedAt (entries : List FileEntry) (startIndex endIndex : Nat)
    (keepRecentTokens : Int) (i : Nat) : Prop where
  low : startIndex ≤ i
  high : i < endIndex
  reached : keepRecentTokens ≤ tokensBetween entries i endIndex
  behind : ∀ k, i < k → (tokensBetween entries k endIndex : Int) < keepRecentTokens

theorem tokensBetween_step {i : Nat} (h : i < endIndex) :
    tokensBetween entries i endIndex
      = (entries[i]?.map entryTokens).getD 0 + tokensBetween entries (i + 1) endIndex := by
  rw [tokensBetween, tokensBetween]
  have hget : (entries.take endIndex)[i]? = entries[i]? := by
    rw [List.getElem?_take, if_pos h]
  cases he : entries[i]? with
  | none =>
    rw [he] at hget
    have hlength := List.getElem?_eq_none_iff.mp hget
    rw [List.drop_of_length_le hlength, List.drop_of_length_le (by omega)]
    rfl
  | some e =>
    rw [he] at hget
    obtain ⟨hi, hi'⟩ := List.getElem?_eq_some_iff.mp hget
    rw [List.drop_eq_getElem_cons hi, hi', List.map_cons, List.sum_cons]
    rfl

theorem tokensBetween_antitone {i k : Nat} (h : i ≤ k) :
    tokensBetween entries k endIndex ≤ tokensBetween entries i endIndex := by
  induction k, h using Nat.le_induction with
  | base => exact Nat.le_refl _
  | succ k _ ih =>
    refine Nat.le_trans ?_ ih
    by_cases hk : k < endIndex
    · rw [tokensBetween_step hk]
      omega
    · have hlength : (entries.take endIndex).length ≤ k := by
        rw [List.length_take]
        omega
      rw [tokensBetween, tokensBetween, List.drop_of_length_le (by omega)]
      exact Nat.zero_le _

theorem tokensAfter_le (v : Nat) :
    tokensAfter entries v endIndex ≤ tokensBetween entries (v + 1) endIndex := by
  rw [tokensAfter, tokensBetween]
  exact List.Sublist.sum_le_sum ((List.dropWhile_sublist _).map entryTokens) (by simp)

/-- The walk from the end finds where the budget is reached; `none` says it is not. -/
theorem budgetIndex_spec {n : Nat} (hn : startIndex + n ≤ endIndex)
    (hbelow : (tokensBetween entries (startIndex + n) endIndex : Int) < keepRecentTokens) :
    match budgetIndex entries startIndex keepRecentTokens n
      (tokensBetween entries (startIndex + n) endIndex) with
    | some i => ReachedAt entries startIndex endIndex keepRecentTokens i
    | none => (tokensBetween entries startIndex endIndex : Int) < keepRecentTokens := by
  induction n with
  | zero =>
    rw [budgetIndex]
    exact hbelow
  | succ n ih =>
    have hstep := @tokensBetween_step entries endIndex (startIndex + n) (by omega)
    have hnext : startIndex + (n + 1) = startIndex + n + 1 := by omega
    rw [hnext] at hbelow ⊢
    rw [budgetIndex]
    generalize (entries[startIndex + n]?.map entryTokens).getD 0 = tokens at hstep ⊢
    by_cases hzero : tokens = 0
    · rw [if_pos hzero]
      rw [hzero, Nat.zero_add] at hstep
      rw [← hstep]
      exact ih (by omega) (by rwa [hstep])
    · rw [if_neg hzero]
      by_cases hreached : keepRecentTokens
          ≤ (tokensBetween entries (startIndex + n + 1) endIndex : Int) + tokens
      · rw [if_pos hreached]
        refine ⟨by omega, by omega, by omega, fun k hk => ?_⟩
        have hle := @tokensBetween_antitone entries endIndex (startIndex + n + 1) k hk
        omega
      · rw [if_neg hreached]
        have hsum : tokensBetween entries (startIndex + n + 1) endIndex + tokens
            = tokensBetween entries (startIndex + n) endIndex := by omega
        rw [hsum]
        exact ih (by omega) (by omega)

/-- What is kept from the visible entry `v` on is within the budget. -/
def KeptWithin (entries : List FileEntry) (startIndex endIndex : Nat) (keepRecentTokens : Int)
    (v : Nat) : Prop :=
  (tokensBetween entries startIndex endIndex : Int) < keepRecentTokens ∧
      (findValidCutPoints entries startIndex endIndex).head? = some v ∨
    (tokensAfter entries v endIndex : Int) < keepRecentTokens

/-- Where the budget is reached, the cut is the first cut point from there on; and the
first of all where there is none. -/
theorem chosenCut_cases (hkeep : 0 < keepRecentTokens) {cut : Nat}
    (h : chosenCut entries startIndex endIndex keepRecentTokens = some cut) :
    ((tokensBetween entries startIndex endIndex : Int) < keepRecentTokens ∧
        (findValidCutPoints entries startIndex endIndex).head? = some cut) ∨
      ∃ i, ReachedAt entries startIndex endIndex keepRecentTokens i ∧
        (i ≤ cut ∨ (∀ c ∈ findValidCutPoints entries startIndex endIndex, c < i) ∧
          (findValidCutPoints entries startIndex endIndex).head? = some cut) := by
  obtain ⟨hlow, hhigh⟩ := findValidCutPoints_bounds (chosenCut_mem h)
  have hend : startIndex + (endIndex - startIndex) = endIndex := by omega
  have hzero : tokensBetween entries (startIndex + (endIndex - startIndex)) endIndex = 0 := by
    rw [hend, tokensBetween, List.drop_of_length_le (List.length_take_le _ _)]
    rfl
  have hspec := @budgetIndex_spec entries startIndex endIndex keepRecentTokens _
    (Nat.le_of_eq hend) (by rw [hzero]; exact hkeep)
  rw [hzero] at hspec
  rw [chosenCut] at h
  split at h
  · cases h
  · rename_i first others hcuts
    rw [hcuts]
    obtain rfl := Option.some.inj h
    split at hspec
    · rename_i i hi
      refine Or.inr ⟨i, hspec, ?_⟩
      cases hfind : (first :: others).find? (i ≤ ·) with
      | none =>
        refine Or.inr ⟨fun c hc => ?_, rfl⟩
        have := List.find?_eq_none.mp hfind c hc
        simpa using this
      | some cut =>
        left
        have hle := List.find?_some hfind
        exact of_decide_eq_true hle
    · exact Or.inl ⟨hspec, rfl⟩

/-- **When the budget is kept**: unless no cut point stands where the budget is reached or
later, and what follows the first cut point is over the budget by itself. -/
theorem findCutPoint_budget_iff (hcuts : findValidCutPoints entries startIndex endIndex ≠ [])
    (hkeep : 0 < keepRecentTokens) :
    (∃ v, firstVisible entries
          (findCutPoint entries startIndex endIndex keepRecentTokens).firstKeptEntryIndex = some v ∧
        KeptWithin entries startIndex endIndex keepRecentTokens v) ↔
      ∀ i first, ReachedAt entries startIndex endIndex keepRecentTokens i →
        (∀ c ∈ findValidCutPoints entries startIndex endIndex, c < i) →
        (findValidCutPoints entries startIndex endIndex).head? = some first →
        (tokensAfter entries first endIndex : Int) < keepRecentTokens := by
  obtain ⟨cut, hcut⟩ := Option.isSome_iff_exists.mp
    ((@chosenCut_isSome_iff entries startIndex endIndex keepRecentTokens).mpr hcuts)
  rw [findCutPoint_of_chosen hcut]
  dsimp only
  rw [firstVisible_cut hcut]
  constructor
  · rintro ⟨v, hv, hwithin⟩ i first hreached hbefore hfirst
    obtain rfl := Option.some.inj hv
    have hover : keepRecentTokens ≤ (tokensBetween entries startIndex endIndex : Int) := by
      have hle := @tokensBetween_antitone entries endIndex _ _ hreached.low
      have := hreached.reached
      omega
    have hcutFirst : first = cut := by
      rcases chosenCut_cases hkeep hcut with ⟨hbelow, -⟩ | ⟨j, hj, hafter | ⟨-, hhead⟩⟩
      · omega
      · -- the budget is reached at one index only
        have hij : i = j := by
          rcases Nat.lt_trichotomy i j with hlt | heq | hlt
          · have hbehind := hreached.behind j hlt
            have := hj.reached
            omega
          · exact heq
          · have hbehind := hj.behind i hlt
            have := hreached.reached
            omega
        have := hbefore cut (chosenCut_mem hcut)
        omega
      · exact Option.some.inj (hfirst.symm.trans hhead)
    rw [hcutFirst]
    exact hwithin.resolve_left fun h => absurd h.1 (by omega)
  · intro h
    refine ⟨cut, rfl, ?_⟩
    rcases chosenCut_cases hkeep hcut with hbelow | ⟨i, hi, hafter | ⟨hbefore, hhead⟩⟩
    · exact Or.inl hbelow
    · right
      have hbehind := hi.behind (cut + 1) (by omega)
      have hle := @tokensAfter_le entries endIndex cut
      omega
    · exact Or.inr (h i cut hi hbefore hhead)

/-- Two turns, and a large tool result at the end. -/
def largeResultPath : List FileEntry :=
  [userEntry "a" "hi", userEntry "b" "a longer prompt", assistantEntry "c" "ok",
    toolResultEntry "d" "c" "a tool result of more than forty characters"]

/-- With a budget of four tokens the call is kept, and its result. -/
theorem findCutPoint_budget_iff_calledPath :
    ∃ v, firstVisible calledPath (findCutPoint calledPath 0 4 4).firstKeptEntryIndex = some v ∧
      KeptWithin calledPath 0 4 4 v := by
  refine (findCutPoint_budget_iff (by decide) (by decide)).mpr fun i first hreached hcuts _ => ?_
  -- the last prompt can be cut at
  have hprompt : 3 < i := hcuts 3 (by decide)
  exact absurd hreached.high (by omega)

/-- The result alone reaches the budget: everything is kept. -/
theorem findCutPoint_keeps_window :
    ¬∃ v, firstVisible largeResultPath (findCutPoint largeResultPath 0 4 4).firstKeptEntryIndex
        = some v ∧ KeptWithin largeResultPath 0 4 4 v := by
  rintro ⟨v, hv, hwithin⟩
  have hfirst : firstVisible largeResultPath
      (findCutPoint largeResultPath 0 4 4).firstKeptEntryIndex = some 0 := by decide
  obtain rfl : 0 = v := Option.some.inj (hfirst.symm.trans hv)
  have hwindow : 4 ≤ tokensBetween largeResultPath 0 4 := by decide
  have hafter : 4 ≤ tokensAfter largeResultPath 0 4 := by decide
  rcases hwithin with h | h
  · omega
  · omega

end PiMono
