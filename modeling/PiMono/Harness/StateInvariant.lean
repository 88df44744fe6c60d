import PiMono.Lib.ParentWalk
import PiMono.Harness.SessionState

/-!
# What holds of every session state

`SessionState.Consistent` says what the parts of a state have to do with its log: the
log is numbered from 1 on without a gap, the indexes are indexes of the log, parents
stand before their entries, lanes and labels point to entries, and the open operations
are those that no later record finishes. No call breaks it (`Consistent.called`), so the
walk from an entry always ends at its root (`Consistent.walkToRoot`).

`WellFormed` adds that the totals are those of all messages and all usage records. A
call can break that by throwing behind its checks, when it adds up a usage that cannot
be read (`SessionState.breaks`); `calls_atomic` says that this is the only way.
-/

namespace PiMono.Harness

namespace LogItem

/-- The entry of an item. -/
def entry? : LogItem → Option Entry
  | .entry e => some e
  | .record _ | .lane .. | .name .. | .label .. => none

/-- The record of an item. -/
def record? : LogItem → Option LaneRecord
  | .record r => some r
  | .entry _ | .lane .. | .name .. | .label .. => none

/-- The id an item uses up. -/
def id? : LogItem → Option JsString
  | .entry e => some e.id
  | .record r => some r.id
  | .lane .. | .name .. | .label .. => none

end LogItem

/-! ## Open operations -/

/-- `r'` finishes the operation that `r` started. -/
def LaneRecord.finishes (r' r : LaneRecord) : Bool :=
  r'.type = .operationFinished ∧ r'.lane = r.lane ∧ r'.runId? = some r.id

/-- The operations that start on a lane and that no later record finishes. -/
def openRecords (lane : JsString) : List LaneRecord → List LaneRecord
  | [] => []
  | r :: rest =>
    if r.type = .operationStarted ∧ r.lane = lane ∧ rest.all (!·.finishes r) then
      r :: openRecords lane rest
    else openRecords lane rest

theorem mem_openRecords {lane : JsString} {rs : List LaneRecord} {r : LaneRecord}
    (h : r ∈ openRecords lane rs) : r ∈ rs ∧ r.type = .operationStarted ∧ r.lane = lane := by
  induction rs with
  | nil => cases h
  | cons r' rest ih =>
    rw [openRecords] at h
    split at h
    · rename_i hr'
      rcases List.mem_cons.mp h with rfl | h
      · exact ⟨List.mem_cons_self, hr'.1, hr'.2.1⟩
      · exact ⟨List.mem_cons_of_mem _ (ih h).1, (ih h).2⟩
    · exact ⟨List.mem_cons_of_mem _ (ih h).1, (ih h).2⟩

/-- One record more finishes what it finishes, and is open itself if it starts something. -/
theorem openRecords_concat (lane : JsString) (rs : List LaneRecord) (r : LaneRecord) :
    openRecords lane (rs ++ [r]) = (openRecords lane rs).filter (!r.finishes ·)
      ++ if r.type = .operationStarted ∧ r.lane = lane then [r] else [] := by
  induction rs with
  | nil => simp [openRecords]
  | cons r' rest ih =>
    rw [List.cons_append, openRecords, openRecords, ih]
    by_cases hr' : r'.type = .operationStarted ∧ r'.lane = lane ∧ rest.all (!·.finishes r') = true
    · by_cases hfin : r.finishes r' = true
      · have hnot : ¬ (r'.type = .operationStarted ∧ r'.lane = lane ∧
            (rest ++ [r]).all (!·.finishes r') = true) := by
          simp [hfin]
        rw [if_neg hnot, if_pos hr', List.filter_cons_of_neg (by simp [hfin])]
      · have hopen : r'.type = .operationStarted ∧ r'.lane = lane ∧
            (rest ++ [r]).all (!·.finishes r') = true := by
          refine ⟨hr'.1, hr'.2.1, ?_⟩
          rw [List.all_append, hr'.2.2]
          simp [hfin]
        rw [if_pos hopen, if_pos hr', List.filter_cons_of_pos (by simp [hfin]), List.cons_append]
    · have hnot : ¬ (r'.type = .operationStarted ∧ r'.lane = lane ∧
          (rest ++ [r]).all (!·.finishes r') = true) := by
        rintro ⟨hs, hl, hall⟩
        rw [List.all_append, Bool.and_eq_true] at hall
        exact hr' ⟨hs, hl, hall.1⟩
      rw [if_neg hnot, if_neg hr']

/-! ## Totals -/

/-- The usage of a usage record. -/
def LaneRecord.usage? (r : LaneRecord) : Option JsValue :=
  if r.type = .usage then r.payload.get? "usage" else none

namespace SessionStats

/-- The totals of all messages and all usage records. -/
def of (entries : List Entry) (records : List LaneRecord) : SessionStats where
  messageCount := entries.countP (·.type = .message)
  cachedTokens := (records.filterMap LaneRecord.usage?).map (usageAddend · .cachedTokens)
  uncachedTokens := (records.filterMap LaneRecord.usage?).map (usageAddend · .uncachedTokens)
  totalTokens := (records.filterMap LaneRecord.usage?).map (usageAddend · .totalTokens)
  costTotal := (records.filterMap LaneRecord.usage?).map (usageAddend · .costTotal)

theorem of_entry (entries : List Entry) (records : List LaneRecord) (e : Entry) :
    of (entries ++ [e]) records = (of entries records).addMessage e := by
  by_cases he : e.type = .message <;> simp [of, addMessage, he]

/-- All that a usage adds. -/
def addAll (s : SessionStats) (usage : JsValue) : SessionStats :=
  Total.all.foldl (fun s t => s.add t (usageAddend usage t)) s

theorem of_record (entries : List Entry) (records : List LaneRecord) (r : LaneRecord) :
    of entries (records ++ [r]) = r.usage?.elim (of entries records)
      (of entries records).addAll := by
  cases hu : r.usage? <;> simp [of, addAll, add, Total.all, hu]

end SessionStats

/-! ## The invariant -/

namespace SessionState

/-- What holds of every state that calls lead to. -/
structure Consistent (s : SessionState) : Prop where
  seqs : s.log.map LogItem.seq = List.range' 1 s.sequence
  entries : s.entries = s.log.filterMap LogItem.entry?
  records : s.records = s.log.filterMap LogItem.record?
  usedIds : s.usedIds = s.log.filterMap LogItem.id?
  distinct : s.usedIds.Nodup
  entriesById : s.entriesById = .index Entry.id s.entries
  parents : ∀ e ∈ s.entries, ∀ parentId, e.parentId = some parentId →
    ∃ parent ∈ s.entries, parent.id = parentId ∧ parent.seq < e.seq
  main : s.lanes.keys.head? = some (js "main")
  lanes : ∀ lane leafId, s.lanes.get? lane = some (some leafId) →
    ∃ e ∈ s.entries, e.id = leafId
  labels : ∀ targetId label, s.labels.get? targetId = some label →
    ∃ e ∈ s.entries, e.id = targetId
  openOperations : ∀ lane, (s.openOperationsByLane.get? lane).elim [] JsMap.entries
    = (openRecords lane s.records).map fun r => (r.id, r)

/-- A state whose totals are those of its messages and its usage records. -/
structure WellFormed (s : SessionState) : Prop extends s.Consistent where
  stats : s.stats = .of s.entries s.records

theorem consistent_fresh : fresh.Consistent where
  seqs := rfl
  entries := rfl
  records := rfl
  usedIds := rfl
  distinct := List.nodup_nil
  entriesById := rfl
  parents := by simp [fresh]
  main := rfl
  lanes := by
    intro lane leafId h
    have hmain : fresh.lanes = JsMap.empty.set (js "main") none := rfl
    rw [hmain, JsMap.get?_set] at h
    split at h
    · cases h
    · cases h
  labels := by simp [fresh]
  openOperations := by simp [fresh, openRecords]

theorem wellFormed_fresh : fresh.WellFormed := ⟨consistent_fresh, rfl⟩

namespace Consistent

variable {s : SessionState}

/-- The totals play no part in it. -/
theorem withStats (h : s.Consistent) (stats : SessionStats) :
    { s with stats := stats }.Consistent := { h with }

theorem seq_le (h : s.Consistent) {item : LogItem} (hitem : item ∈ s.log) :
    1 ≤ item.seq ∧ item.seq ≤ s.sequence := by
  have hmem : item.seq ∈ s.log.map LogItem.seq := List.mem_map_of_mem hitem
  rw [h.seqs, List.mem_range'_1] at hmem
  omega

theorem mem_log_of_entry (h : s.Consistent) {e : Entry} (he : e ∈ s.entries) :
    LogItem.entry e ∈ s.log := by
  rw [h.entries, List.mem_filterMap] at he
  obtain ⟨item, hitem, hentry⟩ := he
  cases item with
  | entry e' => exact Option.some.inj hentry ▸ hitem
  | _ => cases hentry

theorem mem_log_of_record (h : s.Consistent) {r : LaneRecord} (hr : r ∈ s.records) :
    LogItem.record r ∈ s.log := by
  rw [h.records, List.mem_filterMap] at hr
  obtain ⟨item, hitem, hrecord⟩ := hr
  cases item with
  | record r' => exact Option.some.inj hrecord ▸ hitem
  | _ => cases hrecord

theorem id_mem_of_record (h : s.Consistent) {r : LaneRecord} (hr : r ∈ s.records) :
    r.id ∈ s.usedIds := by
  rw [h.usedIds]
  exact List.mem_filterMap.mpr ⟨_, h.mem_log_of_record hr, rfl⟩

/-- The ids of the entries are among those used. -/
theorem entryIds_sublist (h : s.Consistent) : (s.entries.map Entry.id).Sublist s.usedIds := by
  rw [h.entries, h.usedIds]
  induction s.log with
  | nil => exact List.Sublist.refl _
  | cons item log ih =>
    cases item with
    | entry e => simpa [LogItem.entry?, LogItem.id?] using ih
    | record r => exact ih.cons _
    | _ => exact ih

theorem nodup_entryIds (h : s.Consistent) : (s.entries.map Entry.id).Nodup :=
  h.distinct.sublist h.entryIds_sublist

theorem has_iff (h : s.Consistent) {id : JsString} :
    s.entriesById.has id = true ↔ ∃ e ∈ s.entries, e.id = id := by
  rw [JsMap.has_iff, h.entriesById, JsMap.keys_index h.nodup_entryIds, List.mem_map]

theorem getEntry_of_mem (h : s.Consistent) {e : Entry} (he : e ∈ s.entries) :
    s.getEntry e.id = some e := by
  rw [getEntry, h.entriesById]
  exact JsMap.get?_index_of_mem h.nodup_entryIds he

theorem of_getEntry (h : s.Consistent) {id : JsString} {e : Entry} (he : s.getEntry id = some e) :
    e ∈ s.entries ∧ e.id = id := by
  rw [getEntry, h.entriesById] at he
  exact JsMap.mem_of_get?_index h.nodup_entryIds he

end Consistent

/-! ## What the checks say -/

/-- The checks that `applyMutation` makes for a mutation of its kind. -/
def Accepts (s : SessionState) : SessionMutation → Prop
  | .entry lane e => e.id ∉ s.usedIds ∧ (∀ l, lane = some l → s.lanes.get? l = some e.parentId) ∧
      ∀ parentId, e.parentId = some parentId → s.entriesById.has parentId = true
  | .record r => s.lanes.has r.lane = true ∧ r.id ∉ s.usedIds
  | .lane _ _ leafId => ∀ id, leafId = some id → s.entriesById.has id = true
  | .name _ _ => True
  | .label _ targetId _ => s.entriesById.has targetId = true

theorem missingParent_eq_none_iff {s : SessionState} {e : Entry} : s.missingParent e = none ↔
    ∀ parentId, e.parentId = some parentId → s.entriesById.has parentId = true := by
  unfold missingParent
  cases e.parentId <;> simp

theorem invalid?_eq_none_iff {s : SessionState} {m : SessionMutation} :
    s.invalid? m = none ↔ m.seq = s.sequence + 1 ∧ s.Accepts m := by
  unfold invalid?
  by_cases hseq : m.seq = s.sequence + 1
  · rw [if_neg (not_not_intro hseq), and_iff_right hseq]
    cases m with
    | entry lane e =>
      by_cases hid : e.id ∈ s.usedIds
      · simp [Accepts, hid]
      · cases lane with
        | none => simp [Accepts, hid, missingParent_eq_none_iff]
        | some lane =>
          cases hleaf : s.lanes.get? lane with
          | none => simp [Accepts, hid, hleaf]
          | some leafId =>
            by_cases hparent : e.parentId = leafId
            · simp [Accepts, hid, hleaf, hparent, missingParent_eq_none_iff]
            · have hne : leafId ≠ e.parentId := fun heq => hparent heq.symm
              simp [Accepts, hid, hleaf, hparent, hne]
    | record r =>
      by_cases hlane : s.lanes.has r.lane = true
      · by_cases hid : r.id ∈ s.usedIds <;> simp [Accepts, hlane, hid]
      · simp [Accepts, hlane]
    | lane seq lane leafId => cases leafId <;> simp [Accepts]
    | name seq name => simp [Accepts]
    | label seq targetId label => simp [Accepts]
  · rw [if_pos hseq]
    simp [hseq]

/-! ## Adding up usage -/

theorem foldlM_addTo {usage : JsValue} {ts : List Total} (s : SessionState)
    (h : ts.all (usageAdds usage) = true) : ts.foldlM (addTo usage) s
      = .ok { s with
          stats := ts.foldl (fun stats t => stats.add t (usageAddend usage t)) s.stats } := by
  induction ts generalizing s with
  | nil => rfl
  | cons t ts ih =>
    rw [List.all_cons, Bool.and_eq_true] at h
    rw [List.foldlM_cons, addTo, if_pos h.1]
    exact ih _ h.2

theorem foldlM_addTo_throws {usage : JsValue} {ts : List Total} (s : SessionState)
    (h : ts.all (usageAdds usage) = false) :
    ∃ stats, ts.foldlM (addTo usage) s = .error (.typeError { s with stats := stats }) := by
  induction ts generalizing s with
  | nil => cases h
  | cons t ts ih =>
    rw [List.foldlM_cons, addTo]
    by_cases ht : usageAdds usage t = true
    · rw [if_pos ht]
      rw [List.all_cons, ht, Bool.true_and] at h
      exact ih _ h
    · rw [if_neg ht]
      exact ⟨s.stats, rfl⟩

theorem readable?_eq_some {v : Option JsValue} {w : JsValue} (h : readable? v = some w) :
    v = some w := (Option.filter_eq_some_iff.mp h).1

theorem addUsage_of_readable (s : SessionState) {r : LaneRecord}
    (h : usageReadable r.payload = true) : ∃ usage, r.payload.get? "usage" = some usage ∧
      s.addUsage r = .ok { s with stats := s.stats.addAll usage } := by
  unfold usageReadable at h
  unfold addUsage
  cases hu : readable? (r.payload.get? "usage") with
  | none =>
    rw [hu] at h
    cases h
  | some usage =>
    rw [hu] at h
    exact ⟨usage, readable?_eq_some hu, foldlM_addTo s h⟩

/-- Where the usage cannot be read, the call throws with its record already in place. -/
theorem addUsage_throws (s : SessionState) {r : LaneRecord}
    (h : usageReadable r.payload = false) :
    ∃ stats, s.addUsage r = .error (.typeError { s with stats := stats }) := by
  unfold usageReadable at h
  unfold addUsage
  cases hu : readable? (r.payload.get? "usage") with
  | none => exact ⟨s.stats, rfl⟩
  | some usage =>
    rw [hu] at h
    exact foldlM_addTo_throws s h

/-! ## A mutation keeps the invariant -/

namespace Consistent

variable {s : SessionState}

/-- The lane `main` stays the first. -/
theorem main_set {lanes : JsMap JsString (Option JsString)}
    (h : lanes.keys.head? = some (js "main")) (lane : JsString) (leafId : Option JsString) :
    (lanes.set lane leafId).keys.head? = some (js "main") := by
  rw [JsMap.keys_set]
  split
  · exact h
  · rw [List.head?_append, h]
    rfl

/-- The log stays numbered. -/
theorem seqs_concat (h : s.Consistent) {item : LogItem} (hseq : item.seq = s.sequence + 1) :
    (s.log ++ [item]).map LogItem.seq = List.range' 1 item.seq := by
  rw [List.map_append, h.seqs, hseq, List.range'_1_concat, Nat.add_comm 1 s.sequence, List.map_cons,
    List.map_nil, hseq]

/-- A new entry hangs below an older one. -/
theorem parents_concat (h : s.Consistent) {e : Entry} (hseq : e.seq = s.sequence + 1)
    (hparent : ∀ parentId, e.parentId = some parentId → s.entriesById.has parentId = true) :
    ∀ e' ∈ s.entries ++ [e], ∀ parentId, e'.parentId = some parentId →
      ∃ parent ∈ s.entries ++ [e], parent.id = parentId ∧ parent.seq < e'.seq := by
  intro e' he' parentId hid
  rcases List.mem_append.mp he' with he' | he'
  · obtain ⟨parent, hmem, hparent', hlt⟩ := h.parents e' he' parentId hid
    exact ⟨parent, List.mem_append_left _ hmem, hparent', hlt⟩
  · obtain rfl := List.mem_singleton.mp he'
    obtain ⟨parent, hmem, hparent'⟩ := h.has_iff.mp (hparent parentId hid)
    have hle : parent.seq ≤ s.sequence := (h.seq_le (h.mem_log_of_entry hmem)).2
    exact ⟨parent, List.mem_append_left _ hmem, hparent', by omega⟩

theorem pushEntry (h : s.Consistent) {lane : Option JsString} {e : Entry}
    (hseq : e.seq = s.sequence + 1) (hok : s.Accepts (.entry lane e)) :
    (s.pushEntry lane e).Consistent := by
  obtain ⟨hid, -, hparent⟩ := hok
  have hnew : e.id ∉ s.entries.map Entry.id := fun hmem => hid (h.entryIds_sublist.subset hmem)
  refine { seqs := h.seqs_concat hseq, entries := ?_, records := ?_, usedIds := ?_, distinct := ?_,
           entriesById := ?_, parents := h.parents_concat hseq hparent, main := ?_, lanes := ?_,
           labels := ?_, openOperations := h.openOperations }
  · simp [SessionState.pushEntry, h.entries, LogItem.entry?]
  · simp [SessionState.pushEntry, h.records, LogItem.record?]
  · simp [SessionState.pushEntry, h.usedIds, LogItem.id?]
  · exact List.nodup_append.mpr ⟨h.distinct, List.nodup_singleton _, by
      rintro a ha b hb rfl
      exact hid (List.mem_singleton.mp hb ▸ ha)⟩
  · show s.entriesById.set e.id e = _
    rw [h.entriesById, ← JsMap.index_append_singleton]
    rfl
  · cases lane with
    | none => exact h.main
    | some lane => exact main_set h.main lane _
  · intro l leafId hl
    have hlanes : ∀ l leafId, s.lanes.get? l = some (some leafId) →
        ∃ e' ∈ s.entries ++ [e], e'.id = leafId := by
      intro l leafId hl
      obtain ⟨e', he', hid'⟩ := h.lanes l leafId hl
      exact ⟨e', List.mem_append_left _ he', hid'⟩
    cases lane with
    | none => exact hlanes l leafId hl
    | some lane =>
      have hset : ((s.lanes.set lane (some e.id)).get? l) = some (some leafId) := hl
      rw [JsMap.get?_set] at hset
      split at hset
      · exact ⟨e, by simp [SessionState.pushEntry], by simpa using hset⟩
      · exact hlanes l leafId hset
  · intro targetId label hl
    obtain ⟨e', he', hid'⟩ := h.labels targetId label hl
    exact ⟨e', List.mem_append_left _ he', hid'⟩

/-- The ids of the operations open on a lane have been used. -/
theorem not_mem_open (h : s.Consistent) {lane id : JsString} (hid : id ∉ s.usedIds) :
    id ∉ ((s.openOperationsByLane.get? lane).elim [] JsMap.entries).map Prod.fst := by
  rw [h.openOperations, List.map_map, List.mem_map]
  rintro ⟨r, hr, rfl⟩
  exact hid (h.id_mem_of_record (mem_openRecords hr).1)

theorem openOperationsAfter (h : s.Consistent) {r : LaneRecord} (hid : r.id ∉ s.usedIds)
    (lane : JsString) :
    ((SessionState.openOperationsAfter s.openOperationsByLane r).get? lane).elim [] JsMap.entries
      = (openRecords lane (s.records ++ [r])).map fun r => (r.id, r) := by
  rw [openRecords_concat, List.map_append]
  have hopen := h.openOperations lane
  unfold SessionState.openOperationsAfter
  by_cases hstarted : r.type = .operationStarted
  · have hkeep : (openRecords lane s.records).filter (!r.finishes ·) =
      openRecords lane s.records := by
      refine List.filter_eq_self.mpr fun r' _ => ?_
      simp [LaneRecord.finishes, hstarted]
    simp only [hstarted, hkeep, true_and, ← hopen, JsMap.get?_set]
    by_cases hlane : r.lane = lane
    · have hnot := @not_mem_open _ h lane _ hid
      subst hlane
      cases hops : s.openOperationsByLane.get? r.lane with
      | none => simp [JsMap.empty, JsMap.set, setField]
      | some ops =>
        rw [hops] at hnot
        simp [JsMap.set_of_notMem hnot]
    · simp [hlane]
  · by_cases hfinished : r.type = .operationFinished
    · have hlast : ¬ (r.type = .operationStarted ∧ r.lane = lane) := fun hs => hstarted hs.1
      obtain ⟨runId, hrun⟩ : ∃ runId, r.runId? = some runId := by
        have hacc := r.accepted
        simp only [hfinished, RecordType.accepts, RecordType.rejection?] at hacc
        refine Option.ne_none_iff_exists'.mp fun hnone => ?_
        have hrun : r.payload.str? "runId" = none := hnone
        rw [if_pos hrun] at hacc
        cases hacc
      simp only [hfinished, hrun, reduceCtorEq, false_and, if_false, List.map_nil, List.append_nil]
      by_cases hlane : r.lane = lane
      · have hfilter : ((openRecords lane s.records).filter (!r.finishes ·)).map
          (fun r => (r.id, r))
            = removeField ((openRecords lane s.records).map fun r => (r.id, r)) runId := by
          rw [removeField, List.filter_map]
          congr 1
          refine List.filter_congr fun r' hr' => ?_
          have hl := (mem_openRecords hr').2.2
          simp [LaneRecord.finishes, hfinished, hlane, hl, hrun, eq_comm]
        rw [hfilter, ← hopen]
        subst hlane
        cases hops : s.openOperationsByLane.get? r.lane with
        | none => simp [hops, removeField]
        | some ops => simp [JsMap.delete]
      · have hkeep : (openRecords lane s.records).filter (!r.finishes ·)
            = openRecords lane s.records := by
          refine List.filter_eq_self.mpr fun r' hr' => ?_
          have hne : r.lane ≠ r'.lane := fun heq => hlane (heq.trans (mem_openRecords hr').2.2)
          simp [LaneRecord.finishes, hne]
        rw [hkeep, ← hopen]
        cases s.openOperationsByLane.get? r.lane <;> simp [hlane]
    · have hkeep : (openRecords lane s.records).filter (!r.finishes ·)
          = openRecords lane s.records := by
        refine List.filter_eq_self.mpr fun r' _ => ?_
        simp [LaneRecord.finishes, hfinished]
      rw [hkeep, ← hopen, if_neg fun hs => hstarted hs.1]
      cases htype : r.type <;> simp_all

theorem pushRecord (h : s.Consistent) {r : LaneRecord} (hseq : r.seq = s.sequence + 1)
    (hok : s.Accepts (.record r)) : (s.pushRecord r).Consistent := by
  obtain ⟨-, hid⟩ := hok
  refine { h with seqs := h.seqs_concat hseq, entries := ?_, records := ?_, usedIds := ?_,
                  distinct := ?_, openOperations := h.openOperationsAfter hid }
  · simp [SessionState.pushRecord, h.entries, LogItem.entry?]
  · simp [SessionState.pushRecord, h.records, LogItem.record?]
  · simp [SessionState.pushRecord, h.usedIds, LogItem.id?]
  · exact List.nodup_append.mpr ⟨h.distinct, List.nodup_singleton _, by
      rintro a ha b hb rfl
      exact hid (List.mem_singleton.mp hb ▸ ha)⟩

/-- A lane that is moved or made points to an entry. -/
theorem setLane (h : s.Consistent) {seq : Nat} {lane : JsString} {leafId : Option JsString}
    (hseq : seq = s.sequence + 1) (hok : s.Accepts (.lane seq lane leafId)) :
    { s with sequence := seq, lanes := s.lanes.set lane leafId
             log := s.log ++ [.lane seq lane leafId] : SessionState }.Consistent := by
  refine { h with seqs := h.seqs_concat hseq, entries := ?_, records := ?_, usedIds := ?_,
                  main := main_set h.main lane leafId, lanes := ?_ }
  · simp [h.entries, LogItem.entry?]
  · simp [h.records, LogItem.record?]
  · simp [h.usedIds, LogItem.id?]
  · intro l id hl
    have hset : (s.lanes.set lane leafId).get? l = some (some id) := hl
    rw [JsMap.get?_set] at hset
    split at hset
    · exact h.has_iff.mp (hok id (Option.some.inj hset))
    · exact h.lanes l id hset

theorem setName (h : s.Consistent) {seq : Nat} {name : Option JsString}
    (hseq : seq = s.sequence + 1) :
    { s with sequence := seq, name := name, log := s.log ++ [.name seq name] :
      SessionState }.Consistent := by
  refine { h with seqs := h.seqs_concat hseq, entries := ?_, records := ?_, usedIds := ?_ }
  · simp [h.entries, LogItem.entry?]
  · simp [h.records, LogItem.record?]
  · simp [h.usedIds, LogItem.id?]

theorem setLabel (h : s.Consistent) {seq : Nat} {targetId : JsString} {label : Option JsString}
    (hseq : seq = s.sequence + 1) (hok : s.Accepts (.label seq targetId label))
    {labels : JsMap JsString JsString}
    (hlabels : ∀ id, (labels.get? id).isSome → id = targetId ∨ (s.labels.get? id).isSome) :
    { s with sequence := seq, labels := labels, log := s.log ++ [.label seq targetId label] :
      SessionState }.Consistent := by
  refine { h with seqs := h.seqs_concat hseq, entries := ?_, records := ?_, usedIds := ?_,
                  labels := ?_ }
  · simp [h.entries, LogItem.entry?]
  · simp [h.records, LogItem.record?]
  · simp [h.usedIds, LogItem.id?]
  · intro id l hl
    have hset : labels.get? id = some l := hl
    rcases hlabels id (by rw [hset]; rfl) with rfl | hold
    · exact h.has_iff.mp hok
    · obtain ⟨l', hl'⟩ := Option.isSome_iff_exists.mp hold
      exact h.labels id l' hl'

end Consistent

/-- What is committed is numbered by its mutation and leaves its item in the log. -/
theorem commit_log {s s' : SessionState} {m : SessionMutation} (hs : s.commit m = .ok s') :
    s'.sequence = m.seq ∧ s'.log = s.log ++ [m.item] := by
  cases m with
  | record r =>
    rw [commit] at hs
    by_cases husage : r.type = .usage
    · rw [if_pos husage] at hs
      cases hread : usageReadable r.payload with
      | true =>
        obtain ⟨usage, -, hadd⟩ := addUsage_of_readable (s.pushRecord r) hread
        obtain rfl := Except.ok.inj (hadd.symm.trans hs)
        exact ⟨rfl, rfl⟩
      | false =>
        obtain ⟨stats, hthrow⟩ := addUsage_throws (s.pushRecord r) hread
        rw [hthrow] at hs
        cases hs
    · rw [if_neg husage] at hs
      obtain rfl := Except.ok.inj hs
      exact ⟨rfl, rfl⟩
  | _ =>
    obtain rfl := Except.ok.inj hs
    exact ⟨rfl, rfl⟩

/-- A mutation that is applied has passed the checks. -/
theorem applyMutation_ok {s s' : SessionState} {m : SessionMutation}
    (hs : s.applyMutation m = .ok s') :
    m.seq = s.nextSequence ∧ s.Accepts m ∧ s.commit m = .ok s' := by
  unfold applyMutation at hs
  cases hinvalid : s.invalid? m with
  | some message =>
    rw [hinvalid] at hs
    cases hs
  | none =>
    rw [hinvalid] at hs
    obtain ⟨hseq, hok⟩ := invalid?_eq_none_iff.mp hinvalid
    exact ⟨hseq, hok, hs⟩

/-- What is done behind the checks: it returns, or it throws with all but the totals
in place. -/
theorem commit_cases (s : SessionState) (m : SessionMutation) :
    (∃ s', s.commit m = .ok s' ∧
      (s.stats = .of s.entries s.records → s'.stats = .of s'.entries s'.records)) ∨
    ∃ r stats, m = .record r ∧ r.type = .usage ∧ usageReadable r.payload = false ∧
      s.commit m = .error (.typeError { s.pushRecord r with stats := stats }) := by
  cases m with
  | entry lane e =>
    refine Or.inl ⟨_, rfl, fun hstats => ?_⟩
    show s.stats.addMessage e = _
    rw [hstats]
    exact (SessionStats.of_entry s.entries s.records e).symm
  | record r =>
    rw [commit]
    have hof : ∀ o, r.usage? = o → s.stats = .of s.entries s.records →
        o.elim s.stats s.stats.addAll = .of s.entries (s.records ++ [r]) := by
      rintro _ rfl hstats
      rw [SessionStats.of_record, hstats]
    by_cases husage : r.type = .usage
    · rw [if_pos husage]
      cases hread : usageReadable r.payload with
      | true =>
        obtain ⟨usage, hget, hadd⟩ := addUsage_of_readable (s.pushRecord r) hread
        exact Or.inl ⟨_, hadd, hof (some usage) (by rw [LaneRecord.usage?, if_pos husage, hget])⟩
      | false =>
        obtain ⟨stats, hthrow⟩ := addUsage_throws (s.pushRecord r) hread
        exact Or.inr ⟨r, stats, rfl, husage, hread, hthrow⟩
    · rw [if_neg husage]
      exact Or.inl ⟨_, rfl, hof none (by rw [LaneRecord.usage?, if_neg husage])⟩
  | _ => exact Or.inl ⟨_, rfl, id⟩

namespace Consistent

variable {s : SessionState}

/-- What is committed behind the checks is consistent. -/
theorem commit (h : s.Consistent) {m : SessionMutation} {s' : SessionState}
    (hseq : m.seq = s.sequence + 1) (hok : s.Accepts m) (hs : s.commit m = .ok s') :
    s'.Consistent := by
  cases m with
  | entry lane e =>
    obtain rfl := Except.ok.inj hs
    exact h.pushEntry hseq hok
  | record r =>
    rw [SessionState.commit] at hs
    have hpush := h.pushRecord hseq hok
    by_cases husage : r.type = .usage
    · rw [if_pos husage] at hs
      cases hread : usageReadable r.payload with
      | true =>
        obtain ⟨usage, -, hadd⟩ := addUsage_of_readable (s.pushRecord r) hread
        obtain rfl := Except.ok.inj (hadd.symm.trans hs)
        exact hpush.withStats _
      | false =>
        obtain ⟨stats, hthrow⟩ := addUsage_throws (s.pushRecord r) hread
        rw [hthrow] at hs
        cases hs
    · rw [if_neg husage] at hs
      obtain rfl := Except.ok.inj hs
      exact hpush
  | lane seq lane leafId =>
    obtain rfl := Except.ok.inj hs
    exact h.setLane hseq hok
  | name seq name =>
    obtain rfl := Except.ok.inj hs
    exact h.setName hseq
  | label seq targetId label =>
    obtain rfl := Except.ok.inj hs
    refine h.setLabel hseq hok fun id hid => ?_
    by_cases heq : id = targetId
    · exact Or.inl heq
    · have hne : ¬ targetId = id := fun h => heq h.symm
      refine Or.inr ?_
      cases label <;> simpa [hne] using hid

theorem applyMutation (h : s.Consistent) {m : SessionMutation} {s' : SessionState}
    (hs : s.applyMutation m = .ok s') : s'.Consistent := by
  obtain ⟨hseq, hok, hcommit⟩ := applyMutation_ok hs
  exact h.commit hseq hok hcommit

/-- Mutations that all apply lead from a consistent state to a consistent state. -/
theorem replay {ms : List SessionMutation} {s s' : SessionState} (h : s.Consistent)
    (hs : s.replay ms = .ok s') : s'.Consistent := by
  induction ms generalizing s with
  | nil => exact Except.ok.inj hs ▸ h
  | cons m ms ih =>
    rw [SessionState.replay, List.foldlM_cons] at hs
    cases hm : s.applyMutation m with
    | error e =>
      rw [hm] at hs
      cases hs
    | ok s₁ =>
      rw [hm] at hs
      exact ih (h.applyMutation hm) hs

end Consistent

/-- The log of a replay is the items of its mutations. -/
theorem replay_log {ms : List SessionMutation} {s s' : SessionState} (hs : s.replay ms = .ok s') :
    s'.log = s.log ++ ms.map SessionMutation.item := by
  induction ms generalizing s with
  | nil =>
    obtain rfl := Except.ok.inj hs
    simp
  | cons m ms ih =>
    rw [SessionState.replay, List.foldlM_cons] at hs
    cases hm : s.applyMutation m with
    | error e =>
      rw [hm] at hs
      cases hs
    | ok s₁ =>
      rw [hm] at hs
      rw [ih hs, (commit_log (applyMutation_ok hm).2.2).2, List.append_assoc]
      rfl

/-- A call that returns keeps the totals right. -/
theorem WellFormed.applyMutation {s s' : SessionState} (h : s.WellFormed) {m : SessionMutation}
    (hs : s.applyMutation m = .ok s') : s'.WellFormed := by
  refine ⟨h.toConsistent.applyMutation hs, ?_⟩
  obtain ⟨-, -, hcommit⟩ := applyMutation_ok hs
  rcases s.commit_cases m with ⟨s₁, hok, hstats⟩ | ⟨r, stats, -, -, -, hthrow⟩
  · obtain rfl := Except.ok.inj (hok.symm.trans hcommit)
    exact hstats h.stats
  · rw [hthrow] at hcommit
    cases hcommit

/-! ## Walking to the root -/

/-- The walk along a path yields it up to where it is to stop. -/
theorem walkFrom_path {s : SessionState} (stop : Entry → Bool) {path : List Entry} {e : Entry}
    {fuel : Nat} {visited : List JsString}
    (hpath : IsPath Entry.id Entry.parentId none (path ++ [e]))
    (hnd : ((path ++ [e]).map Entry.id).Nodup)
    (hget : ∀ e' ∈ path, s.entriesById.get? e'.id = some e')
    (hvisited : ∀ e' ∈ path ++ [e], e'.id ∉ visited) (hfuel : path.length < fuel) :
    s.walkFrom stop fuel visited e = ⟨takeThrough stop (e :: path.reverse), none⟩ := by
  induction path using List.reverseRecOn generalizing e fuel visited with
  | nil =>
    obtain ⟨fuel, rfl⟩ : ∃ n, fuel = n + 1 := ⟨fuel - 1, by simp at hfuel; omega⟩
    have hroot : e.parentId = none := hpath.1
    rw [walkFrom, if_neg (hvisited e (by simp)), hroot]
    by_cases hstop : stop e = true <;> simp [takeThrough, hstop]
  | append_singleton path p ih =>
    obtain ⟨fuel, rfl⟩ : ∃ n, fuel = n + 1 := ⟨fuel - 1, by simp at hfuel; omega⟩
    obtain ⟨hpath', hparent⟩ := isPath_snoc.mp hpath
    have hp : e.parentId = some p.id := by simpa using hparent
    rw [walkFrom, if_neg (hvisited e (by simp)), hp]
    by_cases hstop : stop e = true
    · simp [takeThrough, hstop]
    · have hnd' : ((path ++ [p]).map Entry.id).Nodup := by
        rw [List.map_append] at hnd
        exact (List.nodup_append.mp hnd).1
      have hnew : ∀ e' ∈ path ++ [p], e'.id ≠ e.id := by
        intro e' he' heq
        rw [List.map_append, List.nodup_append] at hnd
        exact hnd.2.2 e'.id (List.mem_map_of_mem he') e.id (by simp) heq
      have hrest := @ih p fuel (visited ++ [e.id]) hpath' hnd'
        (fun e' he' => hget e' (by simp [he']))
        (by
          intro e' he' hmem
          rcases List.mem_append.mp hmem with hmem | hmem
          · exact hvisited e' (List.mem_append_left _ he') hmem
          · exact hnew e' he' (List.mem_singleton.mp hmem))
        (by simp at hfuel; omega)
      simp only [hstop, Bool.false_eq_true, if_false, hget p (by simp), hrest]
      simp [takeThrough, hstop]

theorem takeThrough_of_never {α : Type} (as : List α) : takeThrough (fun _ => false) as = as := by
  induction as with
  | nil => rfl
  | cons a as ih => simp [takeThrough, ih]

/-- A path, root first, in the order of a query. -/
def branchOrder (query : EntryQuery) (path : List Entry) : List Entry :=
  if query.order = some .oldestFirst then path else path.reverse

/-- The answer to a query along a branch, from the path to its root. -/
def answerFrom (query : EntryQuery) (bounds : BranchBounds) (path : List Entry) :
    Except SessionError (List Entry) := do
  assertValidLimit query.limit
  return limited query.limit
    ((takeThrough bounds.reached (branchOrder query path)).filter (matchesEntryQuery query))

namespace Consistent

variable {s : SessionState}

/-- Entries stand in the order of their sequence numbers. -/
theorem entries_ordered (h : s.Consistent) : (s.entries.map Entry.seq).Pairwise (· < ·) := by
  have hlog : (s.log.map LogItem.seq).Pairwise (· < ·) := by
    rw [h.seqs]
    exact List.pairwise_lt_range'
  rw [h.entries]
  refine hlog.sublist ?_
  induction s.log with
  | nil => exact List.Sublist.refl _
  | cons item log ih =>
    cases item with
    | entry e => simpa [LogItem.entry?, LogItem.seq] using ih
    | _ => exact ih.cons _

/-- Parents stand before their entries. -/
theorem parentsEarlier (h : s.Consistent) :
    ParentsEarlier Entry.id Entry.parentId s.entries := by
  intro pre e post hentries parentId hid
  obtain ⟨parent, hmem, rfl, hlt⟩ := h.parents e (by simp [hentries]) parentId hid
  have hord := h.entries_ordered
  rw [hentries, List.map_append, List.map_cons] at hord
  obtain ⟨-, hpost, -⟩ := List.pairwise_append.mp hord
  rw [hentries] at hmem
  rcases List.mem_append.mp hmem with hmem | hmem
  · exact List.mem_map_of_mem hmem
  · rcases List.mem_cons.mp hmem with rfl | hmem
    · exact absurd hlt (Nat.lt_irrefl _)
    · have hgt := (List.pairwise_cons.mp hpost).1 parent.seq (List.mem_map_of_mem hmem)
      omega

/-- The walk from an entry to its root ends at its root, whatever it is to stop at. -/
theorem walkToRoot (h : s.Consistent) {e : Entry} (he : e ∈ s.entries) :
    ∃ path, (path ++ [e]).Sublist s.entries ∧
      IsPath Entry.id Entry.parentId none (path ++ [e]) ∧
      ∀ stop, s.walkToRoot e.id stop = ⟨takeThrough stop (path ++ [e]).reverse, none⟩ := by
  obtain ⟨path, hsub, hpath, -⟩ := walkUp_of_mem h.nodup_entryIds h.parentsEarlier he
  refine ⟨path, hsub, hpath, fun stop => ?_⟩
  have hget : ∀ e' ∈ s.entries, s.entriesById.get? e'.id = some e' :=
    fun e' he' => h.getEntry_of_mem he'
  have hlen : s.entriesById.entries.length = s.entries.length := by
    rw [h.entriesById, JsMap.entries_index h.nodup_entryIds, List.length_map]
  rw [SessionState.walkToRoot, hget e he, hlen]
  simp only []
  rw [walkFrom_path stop hpath (h.nodup_entryIds.sublist (hsub.map _))
    (fun e' he' => hget e' (hsub.subset (List.mem_append_left _ he'))) (fun _ _ => List.not_mem_nil)
    (by have := hsub.length_le; simp at this; omega)]
  simp

/-- A query along the branch of an entry is answered from the path to its root. -/
theorem findEntriesOnBranch (h : s.Consistent) {e : Entry} (he : e ∈ s.entries) :
    ∃ path, (path ++ [e]).Sublist s.entries ∧
      IsPath Entry.id Entry.parentId none (path ++ [e]) ∧
      ∀ query bounds, s.findEntriesOnBranch e.id query bounds
        = answerFrom query bounds (path ++ [e]) := by
  obtain ⟨path, hsub, hpath, hwalk⟩ := h.walkToRoot he
  refine ⟨path, hsub, hpath, fun query bounds => ?_⟩
  unfold SessionState.findEntriesOnBranch answerFrom
  by_cases hlimit : query.limit = some 0
  · simp [assertValidLimit, hlimit]
    rfl
  · simp only [assertValidLimit, if_neg hlimit, hwalk, branchOrder]
    by_cases horder : query.order = some .oldestFirst
    · rw [if_pos horder, if_pos horder, takeThrough_of_never, List.reverse_reverse]
    · rw [if_neg horder, if_neg horder]

end Consistent

/-! ## Every call -/

/-- A call throws. -/
def throws (s : SessionState) (m : SessionMutation) : Bool :=
  match s.applyMutation m with
  | .ok _ => false
  | .error _ => true

/-- The state a call leaves, whether it returns or throws. -/
def called (s : SessionState) (m : SessionMutation) : SessionState :=
  match s.applyMutation m with
  | .ok s' => s'
  | .error (.invalid _) => s
  | .error (.typeError left) => left

/-- The mutation passes the checks and adds a usage that cannot be read. -/
def breaks (s : SessionState) : SessionMutation → Bool
  | .record r => r.seq = s.nextSequence ∧ s.lanes.has r.lane = true ∧ r.id ∉ s.usedIds ∧
      r.type = .usage ∧ usageReadable r.payload = false
  | .entry .. | .lane .. | .name .. | .label .. => false

/-- A call throws and leaves the state as it was, or it returns and leaves a
well-formed one, in which every walk from an entry ends without an error. -/
def CallSound (s : SessionState) (m : SessionMutation) : Prop :=
  s.throws m = true ∧ s.called m = s ∨
    s.throws m = false ∧ (s.called m).WellFormed ∧
      ∀ e ∈ (s.called m).entries, ∀ stop, ((s.called m).walkToRoot e.id stop).thrown = none

/-- No call breaks the consistency of a state, not even one that throws. -/
theorem Consistent.called {s : SessionState} (h : s.Consistent) (m : SessionMutation) :
    (s.called m).Consistent := by
  unfold SessionState.called
  cases happly : s.applyMutation m with
  | ok s' => exact h.applyMutation happly
  | error error =>
    unfold SessionState.applyMutation at happly
    cases hinvalid : s.invalid? m with
    | some message =>
      rw [hinvalid] at happly
      obtain rfl := Except.error.inj happly
      exact h
    | none =>
      rw [hinvalid] at happly
      have hcommit : s.commit m = .error error := happly
      obtain ⟨hseq, hok⟩ := invalid?_eq_none_iff.mp hinvalid
      rcases s.commit_cases m with ⟨s₁, hret, -⟩ | ⟨r, stats, rfl, -, -, hthrow⟩
      · rw [hret] at hcommit
        cases hcommit
      · obtain rfl := Except.error.inj (hthrow.symm.trans hcommit)
        exact (h.pushRecord hseq hok).withStats stats

/-- On a well-formed state a call goes wrong exactly when it reads a usage that cannot
be read. -/
theorem callSound_iff {s : SessionState} (h : s.WellFormed) (m : SessionMutation) :
    s.CallSound m ↔ s.breaks m = false := by
  constructor
  · intro hsound
    rw [← Bool.not_eq_true]
    intro hbreaks
    cases m with
    | record r =>
      simp only [breaks, decide_eq_true_eq] at hbreaks
      obtain ⟨hseq, hlane, hid, husage, hread⟩ := hbreaks
      have hvalid : s.invalid? (.record r) = none :=
        invalid?_eq_none_iff.mpr ⟨hseq, hlane, hid⟩
      obtain ⟨stats, hthrow⟩ := addUsage_throws (s.pushRecord r) hread
      have happly : s.applyMutation (.record r)
          = .error (.typeError { s.pushRecord r with stats := stats }) := by
        rw [SessionState.applyMutation, hvalid]
        show s.commit (.record r) = _
        rw [commit, if_pos husage, hthrow]
      rcases hsound with ⟨-, hsame⟩ | ⟨hret, -⟩
      · have hseq' : (s.called (.record r)).sequence = r.seq := by
          rw [SessionState.called, happly]
          rfl
        rw [hsame, hseq] at hseq'
        simp [nextSequence] at hseq'
      · rw [throws, happly] at hret
        cases hret
    | _ => cases hbreaks
  · intro hbreaks
    cases happly : s.applyMutation m with
    | ok s' =>
      have hwf := h.applyMutation happly
      have hcalled : s.called m = s' := by rw [SessionState.called, happly]
      refine Or.inr ⟨by rw [throws, happly], hcalled.symm ▸ hwf, ?_⟩
      rw [hcalled]
      intro e he stop
      obtain ⟨path, -, -, hwalk⟩ := hwf.walkToRoot he
      rw [hwalk stop]
    | error error =>
      refine Or.inl ⟨by rw [throws, happly], ?_⟩
      cases hinvalid : s.invalid? m with
      | some message =>
        rw [SessionState.called, SessionState.applyMutation, hinvalid]
      | none =>
        obtain ⟨hseq, hok⟩ := invalid?_eq_none_iff.mp hinvalid
        rw [SessionState.applyMutation, hinvalid] at happly
        have hcommit : s.commit m = .error error := happly
        rcases s.commit_cases m with ⟨s₁, hret, -⟩ | ⟨r, stats, rfl, husage, hread, -⟩
        · rw [hret] at hcommit
          cases hcommit
        · have hbroken : s.breaks (.record r) = true := by
            simp only [breaks, decide_eq_true_eq]
            exact ⟨hseq, hok.1, hok.2, husage, hread⟩
          rw [hbroken] at hbreaks
          cases hbreaks

/-- The state after a sequence of calls on a new one. -/
def calledAll (ms : List SessionMutation) : SessionState := ms.foldl called fresh

/-- After any sequence of calls, even of some that throw, the state is consistent. -/
theorem consistent_calledAll (ms : List SessionMutation) : (calledAll ms).Consistent := by
  induction ms using List.reverseRecOn with
  | nil => exact consistent_fresh
  | append_singleton ms m ih =>
    rw [calledAll, List.foldl_append]
    exact ih.called m

theorem calledAll_concat (ms : List SessionMutation) (m : SessionMutation) :
    calledAll (ms ++ [m]) = (calledAll ms).called m := by
  rw [calledAll, List.foldl_append]
  rfl

/-- As long as every call is sound, the state is well-formed. -/
theorem wellFormed_calledAll {ms : List SessionMutation}
    (h : ∀ pre m post, ms = pre ++ m :: post → (calledAll pre).CallSound m) :
    (calledAll ms).WellFormed := by
  induction ms using List.reverseRecOn with
  | nil => exact wellFormed_fresh
  | append_singleton ms m ih =>
    have hms := ih fun pre m' post hpre => h pre m' (post ++ [m]) (by simp [hpre])
    rw [calledAll_concat]
    rcases h ms m [] rfl with ⟨-, hsame⟩ | ⟨-, hwf, -⟩
    · rw [hsame]
      exact hms
    · exact hwf

/-- Every call of a sequence is sound exactly when none adds a usage that cannot be
read. -/
theorem calls_atomic (ms : List SessionMutation) :
    (∀ pre m post, ms = pre ++ m :: post → (calledAll pre).CallSound m) ↔
      ∀ pre m post, ms = pre ++ m :: post → (calledAll pre).breaks m = false := by
  induction ms using List.reverseRecOn with
  | nil => simp
  | append_singleton ms m ih =>
    have hsplit : ∀ P : List SessionMutation → SessionMutation → Prop,
        (∀ pre m' post, ms ++ [m] = pre ++ m' :: post → P pre m') ↔
          (∀ pre m' post, ms = pre ++ m' :: post → P pre m') ∧ P ms m := by
      intro P
      constructor
      · intro h
        exact ⟨fun pre m' post hpre => h pre m' (post ++ [m]) (by simp [hpre]), h ms m [] rfl⟩
      · rintro ⟨h, hm⟩ pre m' post hpre
        rcases List.eq_nil_or_concat post with rfl | ⟨post', m'', rfl⟩
        · obtain ⟨rfl, hm'⟩ := List.append_inj' hpre rfl
          exact (List.cons.inj hm').1 ▸ hm
        · rw [List.concat_eq_append, ← List.cons_append, ← List.append_assoc] at hpre
          exact h pre m' post' (List.append_inj' hpre rfl).1
    rw [hsplit, hsplit (fun pre m' => (calledAll pre).breaks m' = false), ih]
    refine and_congr_right fun hbreaks => callSound_iff ?_ m
    exact wellFormed_calledAll (ih.mpr hbreaks)

/-- A usage record as a line of a file may hold it: its usage has no cost. -/
def usageWithoutCost : LaneRecord where
  type := .usage
  id := js "u"
  lane := js "main"
  seq := 1
  timestamp := ⟨0, Nat.zero_le _⟩
  payload := ⟨.ofFields [(js "usage", .object [(js "cacheRead", .nat 1), (js "input", .nat 2),
    (js "cacheWrite", .nat 0), (js "totalTokens", .nat 3)])], by decide⟩
  accepted := rfl

/-- Its call throws with the record in the log and three of the four totals added. -/
theorem calls_atomic_without_cost : ¬ ∀ (ms pre : List SessionMutation) (m : SessionMutation)
    (post : List SessionMutation), ms = pre ++ m :: post → (calledAll pre).CallSound m := by
  intro h
  rcases h [.record usageWithoutCost] [] _ [] rfl with ⟨-, hsame⟩ | ⟨hret, -⟩
  · have hseq : ((calledAll []).called (.record usageWithoutCost)).sequence = 1 := by
      decide
    rw [hsame] at hseq
    cases hseq
  · have hthrow : (calledAll []).throws (.record usageWithoutCost) = true := by decide
    rw [hthrow] at hret
    cases hret

end SessionState

end PiMono.Harness
