import PiMono.CodingAgent.CompactionCoverage
import PiMono.CodingAgent.SessionFork

/-!
# The chain that migration builds

`migrateV1ToV2` (`session-manager.ts:246-275`) gives the entries of an old file ids and
hangs each below the one before. The set of ids that `generateId` checks never grows, so
the first draw of each entry is its id: `Renamed` is what holds behind each turn of the
loop, and `migrateToCurrentVersion_chain_iff` says when a valid chain comes out.
-/

namespace PiMono

/-- The entries without headers. -/
def nonHeaders (entries : List FileEntry) : List FileEntry := entries.filter (!·.isHeader)

/-- The index that `firstKeptEntryIndex` names. -/
def FileEntry.firstKeptEntryIndex? (e : FileEntry) : Option Nat :=
  ((e.raw.get? (js "firstKeptEntryIndex")).bind JsValue.num?).bind JsNumber.toNat?

/-- Each entry hangs below the one before it, the first below nothing. -/
def HangBelow (entries : List FileEntry) : Prop :=
  IsPath (fun e => JsValue.str e.id) (fun e => e.raw.get? (js "parentId")) (some .null) entries

/-- A compaction that named an earlier entry by its index names it by its id. -/
def KeepsFirstKept (before after : List FileEntry) : Prop :=
  ∀ (i j : Nat) (e e' target : FileEntry), before[i]? = some e → e.isCompaction = true →
    e.firstKeptEntryIndex? = some j → j < i → after[i]? = some e' → after[j]? = some target →
      target.isHeader = false → e'.raw.get? (js "firstKeptEntryId") = some (.str target.id)

/-- What a file is after migration. -/
structure IsMigratedChain (before after : List FileEntry) : Prop where
  length : after.length = before.length
  distinct : ((nonHeaders after).map (·.id)).Nodup
  parents : HangBelow (nonHeaders after)
  kept : KeepsFirstKept before after
  path : ∀ leafId : Option JsString,
    (∀ id ∈ leafId, ((nonHeaders after).getLast?.map (·.id)) = some id) →
      buildSessionPath (nonHeaders after) (leafId.map some) none = some (nonHeaders after)
  again : ∀ uuids, migrateToCurrentVersion uuids after = (after, false)

/-- No two entries draw the same short id first. -/
def DistinctDraws (uuids : Nat → Nat → Uuid) (entries : List FileEntry) : Prop :=
  ∀ (i j : Nat) (e e' : FileEntry), i < j → entries[i]? = some e → entries[j]? = some e' →
    e.isHeader = false → e'.isHeader = false → (uuids i 0).short ≠ (uuids j 0).short

/-! ## The first migration -/

/-- Behind the turns of the loop over `seen`: `done` are the migrated entries. -/
structure Renamed (uuids : Nat → Nat → Uuid) (seen done : List FileEntry) : Prop where
  length : done.length = seen.length
  header : ∀ (i : Nat) (e e' : FileEntry), seen[i]? = some e → done[i]? = some e' →
    e'.isHeader = e.isHeader
  drawn : ∀ (i : Nat) (e' : FileEntry), done[i]? = some e' → e'.isHeader = false →
    e'.raw.get? (js "id") = some (.str (uuids i 0).short)
  parents : HangBelow (nonHeaders done)
  kept : KeepsFirstKept seen done

variable {uuids : Nat → Nat → Uuid} {seen done : List FileEntry} {e e' : FileEntry}

theorem FileEntry.id_of_get? {id : JsString} (h : e.raw.get? (js "id") = some (.str id)) :
    e.id = id := by
  rw [FileEntry.id, strD, JsValue.strField?, h]
  rfl

theorem nonHeaders_snoc (h : e'.isHeader = false) : nonHeaders (done ++ [e'])
    = nonHeaders done ++ [e'] := by
  rw [nonHeaders, List.filter_append, List.filter_cons_of_pos (by simp [h]), List.filter_nil]
  rfl

theorem nonHeaders_snoc_header (h : e'.isHeader = true) :
    nonHeaders (done ++ [e']) = nonHeaders done := by
  rw [nonHeaders, List.filter_append, List.filter_cons_of_neg (by simp [h]), List.filter_nil,
    List.append_nil]
  rfl

/-- One turn of the loop: a migrated entry behind the others. -/
theorem Renamed.snoc (h : Renamed uuids seen done) (hheader : e'.isHeader = e.isHeader)
    (hdrawn : e.isHeader = false →
      e'.raw.get? (js "id") = some (.str (uuids done.length 0).short))
    (hparent : e.isHeader = false → e'.raw.get? (js "parentId")
      = some (((nonHeaders done).getLast?.map (·.id)).elim .null .str))
    (hkept : ∀ (j : Nat) (target : FileEntry), e.isCompaction = true →
      e.firstKeptEntryIndex? = some j → done[j]? = some target → target.isHeader = false →
        e'.raw.get? (js "firstKeptEntryId") = some (.str target.id)) :
    Renamed uuids (seen ++ [e]) (done ++ [e']) := by
  have hold : ∀ {i : Nat} {a b : FileEntry}, (seen ++ [e])[i]? = some a →
      (done ++ [e'])[i]? = some b → (seen[i]? = some a ∧ done[i]? = some b) ∨
        (i = done.length ∧ a = e ∧ b = e') := by
    intro i a b ha hb
    by_cases hi : i < done.length
    · rw [List.getElem?_append_left (h.length ▸ hi)] at ha
      rw [List.getElem?_append_left hi] at hb
      exact .inl ⟨ha, hb⟩
    · obtain ⟨hlt, -⟩ := List.getElem?_eq_some_iff.mp hb
      have hlast : i = done.length := by
        simp at hlt
        omega
      subst hlast
      rw [List.getElem?_concat_length] at hb
      rw [h.length, List.getElem?_concat_length] at ha
      exact .inr ⟨rfl, (Option.some.inj ha).symm, (Option.some.inj hb).symm⟩
  have hlt : ∀ {i : Nat} {a : FileEntry}, (done ++ [e'])[i]? = some a →
      done[i]? = some a ∨ (i = done.length ∧ a = e') := by
    intro i a ha
    by_cases hi : i < done.length
    · rw [List.getElem?_append_left hi] at ha
      exact .inl ha
    · obtain ⟨hlt, -⟩ := List.getElem?_eq_some_iff.mp ha
      have hlast : i = done.length := by
        simp at hlt
        omega
      subst hlast
      rw [List.getElem?_concat_length] at ha
      exact .inr ⟨rfl, (Option.some.inj ha).symm⟩
  constructor
  · simp [h.length]
  · intro i a b ha hb
    obtain ⟨ha, hb⟩ | ⟨-, rfl, rfl⟩ := hold ha hb
    · exact h.header i a b ha hb
    · exact hheader
  · intro i b hb hnot
    obtain hb | ⟨rfl, rfl⟩ := hlt hb
    · exact h.drawn i b hb hnot
    · exact hdrawn (hheader ▸ hnot)
  · cases hcase : e.isHeader with
    | true =>
      rw [nonHeaders_snoc_header (hheader.trans hcase)]
      exact h.parents
    | false =>
      rw [nonHeaders_snoc (hheader.trans hcase), HangBelow, isPath_snoc]
      refine ⟨h.parents, (hparent hcase).trans ?_⟩
      cases (nonHeaders done).getLast? <;> rfl
  · intro i j a b target ha hcompaction hindex hj hb htarget hnot
    obtain ⟨hnew, hbnew⟩ | ⟨rfl, rfl, rfl⟩ := hold ha hb
    · have hjlt : j < done.length := by
        obtain ⟨hilt, -⟩ := List.getElem?_eq_some_iff.mp hbnew
        omega
      rw [List.getElem?_append_left hjlt] at htarget
      exact h.kept i j a b target hnew hcompaction hindex hj hbnew htarget hnot
    · rw [List.getElem?_append_left hj] at htarget
      exact hkept j target hcompaction hindex htarget hnot

/-- Only ids, parents and the index of a compaction are touched. -/
def linkedEntry (e : FileEntry) (id : JsString) (prevId : Option JsString) : FileEntry :=
  ⟨(e.raw.set (js "id") (.str id)).set (js "parentId") (prevId.elim .null .str)⟩

section Linked

variable {id : JsString} {prevId : Option JsString}

theorem linkedEntry_get? {key : String} (hid : key ≠ "id") (hparent : key ≠ "parentId") :
    (linkedEntry e id prevId).raw.get? (js key) = e.raw.get? (js key) := by
  have h : js "id" ≠ js key := by simpa using Ne.symm hid
  have h' : js "parentId" ≠ js key := by simpa using Ne.symm hparent
  rw [linkedEntry, JsValue.get?_set_of_ne h', JsValue.get?_set_of_ne h]

theorem linkedEntry_id (hobject : e.raw.isObject = true) :
    (linkedEntry e id prevId).raw.get? (js "id") = some (.str id) := by
  rw [linkedEntry, JsValue.get?_set_of_ne (by decide), JsValue.get?_set hobject, if_pos rfl]

theorem linkedEntry_parentId (hobject : e.raw.isObject = true) :
    (linkedEntry e id prevId).raw.get? (js "parentId") = some (prevId.elim .null .str) := by
  rw [linkedEntry, JsValue.get?_set (by rwa [JsValue.isObject_set]), if_pos rfl]

/-- An index of an earlier entry becomes the id of that entry. -/
theorem keepById_firstKeptEntryId {entries : List FileEntry} {target : FileEntry} {j : Nat}
    {kept : JsString} (hobject : e.raw.isObject = true) (hindex : e.firstKeptEntryIndex? = some j)
    (htarget : entries[j]? = some target) (hnot : target.isHeader = false)
    (hkept : target.raw.get? (js "id") = some (.str kept)) :
    (e.keepById entries).raw.get? (js "firstKeptEntryId") = some (.str kept) := by
  rw [FileEntry.firstKeptEntryIndex?, Option.bind_eq_some_iff] at hindex
  obtain ⟨index, hnum, hj⟩ := hindex
  rw [FileEntry.keepById, hnum]
  dsimp only
  rw [hj, Option.bind_some, htarget]
  dsimp only
  rw [hnot, if_neg Bool.false_ne_true, hkept]
  dsimp only
  rw [JsValue.get?_delete_of_ne (by decide), JsValue.get?_set hobject, if_pos rfl]

end Linked

/-- **The loop.** What it makes of the rest keeps to the same rules. -/
theorem migrateV1ToV2From_renamed : ∀ {rest seen done : List FileEntry} {prevId : Option JsString},
    Renamed uuids seen done → prevId = (nonHeaders done).getLast?.map (·.id) →
      (∀ e ∈ rest, e.raw.isObject = true) →
        Renamed uuids (seen ++ rest) (migrateV1ToV2From uuids done rest prevId)
  | [], seen, done, _, h, _, _ => by
    rw [List.append_nil, migrateV1ToV2From]
    exact h
  | e :: rest, seen, done, prevId, h, hprev, hobjects => by
    obtain ⟨hobject, hrest⟩ := List.forall_mem_cons.mp hobjects
    rw [List.append_cons, migrateV1ToV2From]
    cases hcase : e.isHeader with
    | true =>
      have hstill : (e.withVersion 2).isHeader = true :=
        ((sameLine_withVersion e 2).2 hcase).1
      rw [if_pos rfl]
      refine migrateV1ToV2From_renamed (h.snoc (hstill.trans hcase.symm) ?_ ?_ ?_) ?_ hrest
      · exact fun hnot => absurd (hcase.symm.trans hnot) (by decide)
      · exact fun hnot => absurd (hcase.symm.trans hnot) (by decide)
      · intro j target hcompaction
        rw [FileEntry.isHeader, decide_eq_true_eq] at hcase
        rw [FileEntry.isCompaction, hcase] at hcompaction
        exact absurd hcompaction (by decide)
      · rw [nonHeaders_snoc_header hstill]
        exact hprev
    | false =>
      rw [if_neg Bool.false_ne_true]
      have hdraw : generateId (fun _ => false) (uuids done.length)
          = (uuids done.length 0).short := rfl
      dsimp only
      rw [hdraw]
      change Renamed uuids _ (migrateV1ToV2From uuids (done ++ [if (linkedEntry e
        (uuids done.length 0).short prevId).type = some (js "compaction") then
          (linkedEntry e (uuids done.length 0).short prevId).keepById
            (done ++ linkedEntry e (uuids done.length 0).short prevId :: rest)
        else linkedEntry e (uuids done.length 0).short prevId]) rest
          (some (uuids done.length 0).short))
      generalize hlinked : linkedEntry e (uuids done.length 0).short prevId = linked
      have htype : linked.type = e.type := by
        rw [FileEntry.type, JsValue.strField?, ← hlinked, linkedEntry_get? (by decide) (by decide)]
        rfl
      generalize hmigrated : (if linked.type = some (js "compaction") then
        linked.keepById (done ++ linked :: rest) else linked) = e'
      have hfields : ∀ key : String, key ≠ "firstKeptEntryId" → key ≠ "firstKeptEntryIndex" →
          e'.raw.get? (js key) = linked.raw.get? (js key) := by
        intro key hid hindex
        rw [← hmigrated]
        split
        · exact linked.keepById_get? _ hid hindex
        · rfl
      have hid : e'.raw.get? (js "id") = some (.str (uuids done.length 0).short) := by
        rw [hfields "id" (by decide) (by decide), ← hlinked]
        exact linkedEntry_id hobject
      have hheader : e'.isHeader = e.isHeader := by
        rw [FileEntry.isHeader, FileEntry.type, JsValue.strField?,
          hfields "type" (by decide) (by decide)]
        rw [FileEntry.isHeader, ← htype]
        rfl
      refine migrateV1ToV2From_renamed (h.snoc hheader (fun _ => hid) (fun _ => ?_) ?_) ?_ hrest
      · rw [hfields "parentId" (by decide) (by decide), ← hlinked, ← hprev]
        exact linkedEntry_parentId hobject
      · intro j target hcompaction hindex htarget hnot
        rw [FileEntry.isCompaction, ← htype, decide_eq_true_eq] at hcompaction
        rw [if_pos hcompaction] at hmigrated
        have hkept := h.drawn j target htarget hnot
        rw [← hmigrated, FileEntry.id_of_get? hkept]
        have hjlt : j < done.length := (List.getElem?_eq_some_iff.mp htarget).1
        refine keepById_firstKeptEntryId ?_ ?_
          ((List.getElem?_append_left hjlt).trans htarget) hnot hkept
        · rwa [← hlinked, linkedEntry, JsValue.isObject_set, JsValue.isObject_set]
        · rwa [FileEntry.firstKeptEntryIndex?, ← hlinked,
            linkedEntry_get? (by decide) (by decide)]
      · rw [nonHeaders_snoc (hheader.trans hcase), List.getLast?_concat, Option.map_some,
          FileEntry.id_of_get? hid]

/-! ## The second migration -/

/-- What `migrateV2ToV3` makes of an entry. -/
def toV3 (e : FileEntry) : FileEntry :=
  if e.isHeader then e.withVersion 3 else e.renameHookMessage

theorem toV3_get? (e : FileEntry) {key : String} (hversion : key ≠ "version")
    (hmessage : key ≠ "message") : (toV3 e).raw.get? (js key) = e.raw.get? (js key) := by
  rw [toV3]
  split
  · exact e.withVersion_get? 3 hversion
  · exact e.renameHookMessage_get? hmessage

theorem isHeader_toV3 (e : FileEntry) : (toV3 e).isHeader = e.isHeader := by
  rw [FileEntry.isHeader, FileEntry.type, JsValue.strField?, toV3_get? e (by decide) (by decide)]
  rfl

theorem id_toV3 (e : FileEntry) : (toV3 e).id = e.id := by
  rw [FileEntry.id, FileEntry.strD, JsValue.strField?, toV3_get? e (by decide) (by decide)]
  rfl

theorem nonHeaders_map_toV3 (entries : List FileEntry) :
    nonHeaders (entries.map toV3) = (nonHeaders entries).map toV3 := by
  rw [nonHeaders, nonHeaders, List.filter_map]
  congr 2
  funext e
  simp [isHeader_toV3]

theorem Renamed.toV3 (h : Renamed uuids seen done) : Renamed uuids seen (done.map toV3) := by
  have hget : ∀ {i : Nat} {b : FileEntry}, (done.map PiMono.toV3)[i]? = some b →
      ∃ a, done[i]? = some a ∧ PiMono.toV3 a = b := by
    intro i b hb
    rwa [List.getElem?_map, Option.map_eq_some_iff] at hb
  constructor
  · rw [List.length_map, h.length]
  · intro i a b ha hb
    obtain ⟨b, hb', rfl⟩ := hget hb
    rw [isHeader_toV3]
    exact h.header i a b ha hb'
  · intro i b hb hnot
    obtain ⟨b, hb', rfl⟩ := hget hb
    rw [isHeader_toV3] at hnot
    rw [toV3_get? b (by decide) (by decide)]
    exact h.drawn i b hb' hnot
  · rw [nonHeaders_map_toV3, HangBelow, isPath_map (fun e => by rw [id_toV3])
      (fun e => toV3_get? e (by decide) (by decide))]
    exact h.parents
  · intro i j a b target ha hcompaction hindex hj hb htarget hnot
    obtain ⟨b, hb', rfl⟩ := hget hb
    obtain ⟨target, htarget', rfl⟩ := hget htarget
    rw [isHeader_toV3] at hnot
    rw [toV3_get? b (by decide) (by decide), id_toV3]
    exact h.kept i j a b target ha hcompaction hindex hj hb' htarget' hnot

/-! ## The chain -/

/-- The ids are the draws. -/
theorem Renamed.distinct_iff (h : Renamed uuids seen done) :
    ((nonHeaders done).map (·.id)).Nodup ↔ DistinctDraws uuids seen := by
  rw [nonHeaders, List.Nodup, List.pairwise_map, List.pairwise_filter, List.pairwise_iff_getElem]
  have hid : ∀ {i : Nat} {b : FileEntry}, done[i]? = some b → b.isHeader = false →
      b.id = (uuids i 0).short := fun hb hnot => FileEntry.id_of_get? (h.drawn _ _ hb hnot)
  constructor
  · intro hdistinct i j e e' hij he he' hnot hnot'
    obtain ⟨hi, -⟩ := List.getElem?_eq_some_iff.mp he
    obtain ⟨hj, -⟩ := List.getElem?_eq_some_iff.mp he'
    rw [← h.length] at hi hj
    have hb := List.getElem?_eq_getElem hi
    have hb' := List.getElem?_eq_getElem hj
    have hnotb := (h.header i e _ he hb).trans hnot
    have hnotb' := (h.header j e' _ he' hb').trans hnot'
    rw [← hid hb hnotb, ← hid hb' hnotb']
    exact hdistinct i j hi hj hij (by simp [hnotb]) (by simp [hnotb'])
  · intro hdraws i j hi hj hij hnotb hnotb'
    simp only [Bool.not_eq_true'] at hnotb hnotb'
    have hb := List.getElem?_eq_getElem hi
    have hb' := List.getElem?_eq_getElem hj
    have he := List.getElem?_eq_getElem (h.length ▸ hi)
    have he' := List.getElem?_eq_getElem (h.length ▸ hj)
    rw [hid hb hnotb, hid hb' hnotb']
    exact hdraws i j _ _ hij he he' ((h.header i _ _ he hb).symm.trans hnotb)
      ((h.header j _ _ he' hb').symm.trans hnotb')

theorem Uuid.short_ne_nil (u : Uuid) : u.short ≠ [] := by
  have := u.length_text
  rw [Uuid.short, ne_eq, List.take_eq_nil_iff]
  rintro (h | h)
  · cases h
  · simp [h] at this

/-- The links that the walk follows. -/
theorem isPath_parentLink : ∀ {above : Option JsString} {entries : List FileEntry},
    (∀ id ∈ above, id ≠ []) → (∀ e ∈ entries, e.id ≠ []) →
      IsPath (fun e => JsValue.str e.id) (fun e => e.raw.get? (js "parentId"))
        (some (above.elim .null .str)) entries →
          IsPath (·.id) FileEntry.parentLink above entries
  | _, [], _, _, _ => trivial
  | above, e :: entries, habove, hids, hpath => by
    obtain ⟨hid, hrest⟩ := List.forall_mem_cons.mp hids
    obtain ⟨hparent, hpath⟩ := hpath
    have hself : ∀ id ∈ some e.id, id ≠ [] := by simpa using hid
    refine ⟨?_, isPath_parentLink hself hrest hpath⟩
    change e.raw.get? (js "parentId") = _ at hparent
    rw [FileEntry.parentLink, FileEntry.parentId, JsValue.strField?, hparent, Option.bind_some]
    cases above with
    | none => rfl
    | some id => exact Option.filter_eq_some_iff.mpr ⟨rfl, by simpa using habove id rfl⟩

/-- The path through distinct entries, from the last one. -/
theorem buildSessionPath_chain {entries : List FileEntry}
    (hdistinct : (entries.map (·.id)).Nodup) (hids : ∀ e ∈ entries, e.id ≠ [])
    (hparents : HangBelow entries) {leafId : Option JsString}
    (hleaf : ∀ id ∈ leafId, (entries.getLast?.map (·.id)) = some id) :
    buildSessionPath entries (leafId.map some) none = some entries := by
  have hpath : IsPath (·.id) FileEntry.parentLink none entries :=
    isPath_parentLink (fun _ h => nomatch h) hids hparents
  refine Eq.trans ?_ (buildSessionPath_self ⟨hpath, hdistinct⟩)
  cases leafId with
  | none => rfl
  | some id =>
    -- the leaf that the id names is the last entry
    obtain ⟨last, hlast, rfl⟩ := Option.map_eq_some_iff.mp (hleaf id rfl)
    have hmem : last ∈ entries := List.mem_of_getLast? hlast
    have hget : (JsMap.index (·.id) entries).get? last.id = some last :=
      JsMap.get?_index_of_mem hdistinct hmem
    simp only [buildSessionPath, Option.map_some, Option.getD_none, Option.join_some,
      Option.join_none, Option.filter_none, Option.bind_none, Option.none_or]
    rw [if_neg (by simp), if_neg (by simp), Option.filter_some, if_pos (by simp [hids last hmem]),
      Option.bind_some, hget, hlast]
    rfl

/-- Migrating from version 1. -/
theorem migrateToCurrentVersion_v1 {entries : List FileEntry}
    (hversion : (sessionVersion? entries).any (· < 2) = true) :
    (migrateToCurrentVersion uuids entries).1 = (migrateV1ToV2 uuids entries).map toV3 := by
  obtain ⟨v, hv, hlt⟩ := (Option.any_eq_true _ _).mp hversion
  rw [decide_eq_true_eq] at hlt
  have hcurrent : ¬(sessionVersion? entries).any ((currentSessionVersion : Int) ≤ ·) = true := by
    rw [hv, Option.any_some, decide_eq_true_eq, currentSessionVersion]
    omega
  have hold : (sessionVersion? entries).any (· < 3) = true := by
    rw [hv, Option.any_some, decide_eq_true_eq]
    omega
  rw [migrateToCurrentVersion]
  dsimp only
  rw [if_neg hcurrent]
  dsimp only
  rw [if_pos hversion, if_pos hold]
  rfl

theorem isObject_of_isHeader (h : e.isHeader = true) : e.raw.isObject = true := by
  rw [FileEntry.isHeader, decide_eq_true_eq, FileEntry.type, JsValue.strField?,
    Option.bind_eq_some_iff] at h
  obtain ⟨type, htype, -⟩ := h
  exact JsValue.isObject_of_get? htype

/-- What is migrated has the current version. -/
theorem migrateToCurrentVersion_again {header : FileEntry} {rest : List FileEntry}
    (hheader : header.isHeader = true) (uuids' : Nat → Nat → Uuid) :
    let after := (migrateV1ToV2 uuids (header :: rest)).map toV3
    migrateToCurrentVersion uuids' after = (after, false) := by
  have hlines : List.Forall₂ (fun e e' : FileEntry => e.isHeader = true → e' = e.withVersion 2)
      (header :: rest) (migrateV1ToV2 uuids (header :: rest)) := by
    refine migrateV1ToV2_forall₂ (fun e _ _ => rfl) (fun e k parent hnot => ?_) _
    have hnever : ∀ {P : Prop}, e.isHeader = true → P :=
      fun h => absurd (hnot.symm.trans h) (by decide)
    exact ⟨fun h => hnever h, fun _ h => hnever h⟩
  obtain ⟨first, rest', hfirst, -, hcons⟩ := List.forall₂_cons_left_iff.mp hlines
  have hstill : (header.withVersion 2).isHeader = true :=
    ((sameLine_withVersion header 2).2 hheader).1
  have hversion : ((header.withVersion 2).withVersion 3).raw.get? (js "version")
      = some (.nat 3) := by
    rw [FileEntry.withVersion, JsValue.get?_set (isObject_of_isHeader hstill), if_pos rfl]
  rw [hcons, hfirst hheader, List.map_cons, toV3, if_pos hstill]
  have hcurrent : sessionVersion? ((header.withVersion 2).withVersion 3 :: rest'.map toV3)
      = some (currentSessionVersion : Int) := by
    rw [sessionVersion?, List.find?_cons_of_pos ((sameLine_withVersion _ 3).2 hstill).1]
    dsimp only
    rw [FileEntry.version?, hversion]
    decide
  dsimp only
  rw [migrateToCurrentVersion, hcurrent]
  rfl

/-- **Migration builds a chain.** The entries of an old file become a chain exactly where
their draws are distinct. -/
theorem migrateToCurrentVersion_chain_iff {header : FileEntry} {rest : List FileEntry}
    (uuids : Nat → Nat → Uuid) (hheader : header.isHeader = true)
    (hversion : header.version?.any (· < 2) = true)
    (hrest : ∀ e ∈ rest, e.raw.isObject = true) :
    IsMigratedChain (header :: rest) (migrateToCurrentVersion uuids (header :: rest)).1 ↔
      DistinctDraws uuids (header :: rest) := by
  have hstart : Renamed uuids [] [] := by
    refine ⟨rfl, ?_, ?_, trivial, ?_⟩ <;> intro i <;> simp
  have hrenamed : Renamed uuids (header :: rest) (migrateV1ToV2 uuids (header :: rest)) :=
    migrateV1ToV2From_renamed hstart rfl
      (List.forall_mem_cons.mpr ⟨isObject_of_isHeader hheader, hrest⟩)
  have hv : (sessionVersion? (header :: rest)).any (· < 2) = true := by
    rw [sessionVersion?, List.find?_cons_of_pos hheader]
    exact hversion
  rw [migrateToCurrentVersion_v1 hv]
  have hafter := hrenamed.toV3
  constructor
  · exact fun hchain => hafter.distinct_iff.mp hchain.distinct
  · intro hdraws
    have hdistinct := hafter.distinct_iff.mpr hdraws
    refine ⟨hafter.length, hdistinct, hafter.parents, hafter.kept, fun leafId hleaf => ?_,
      fun uuids' => migrateToCurrentVersion_again hheader uuids'⟩
    refine buildSessionPath_chain hdistinct (fun e he => ?_) hafter.parents hleaf
    obtain ⟨hmem, hnot⟩ := List.mem_filter.mp he
    obtain ⟨i, hi⟩ := List.mem_iff_getElem?.mp hmem
    rw [FileEntry.id_of_get? (hafter.drawn i e hi (by simpa using hnot))]
    exact Uuid.short_ne_nil _

section Runs

/-- A UUID whose first group repeats a digit. -/
def digitUuid (n : Nat) : Uuid where
  text := List.replicate 8 (0x30 + n % 10).toUInt16 ++ js "-0000-4000-8000-000000000000"
  length_text := by
    rw [List.length_append, List.length_replicate]
    decide

/-- An old file with two user messages and a compaction. -/
def oldHeader : FileEntry := ⟨.object [(js "type", .str (js "session")), (js "id", .str (js "s"))]⟩

def oldMessages : List FileEntry :=
  let message : FileEntry := ⟨.object [(js "type", .str (js "message")),
    (js "message", .object [(js "role", .str (js "user"))])]⟩
  [message, message, ⟨.object [(js "type", .str (js "compaction")),
    (js "firstKeptEntryIndex", .nat 1)]⟩]

theorem migrateToCurrentVersion_chain_oldMessages :
    IsMigratedChain (oldHeader :: oldMessages)
      (migrateToCurrentVersion (fun i _ => digitUuid i) (oldHeader :: oldMessages)).1 := by
  refine (migrateToCurrentVersion_chain_iff _ (by decide) (by decide)
    (by decide)).mpr ?_
  intro i j e e' hij he he' _ _
  have hi : i < 4 := (List.getElem?_eq_some_iff.mp he).1
  have hj : j < 4 := (List.getElem?_eq_some_iff.mp he').1
  have hshort : ∀ i j : Fin 4, i < j → (digitUuid i).short ≠ (digitUuid j).short := by decide
  exact hshort ⟨i, hi⟩ ⟨j, hj⟩ hij

/-- Two equal draws: the second message is its own parent. -/
theorem migrateToCurrentVersion_repeats :
    ¬ IsMigratedChain (oldHeader :: oldMessages)
      (migrateToCurrentVersion (fun _ _ => digitUuid 7) (oldHeader :: oldMessages)).1 := by
  intro hchain
  have hrepeats : ¬ ((nonHeaders (migrateToCurrentVersion (fun _ _ => digitUuid 7)
      (oldHeader :: oldMessages)).1).map (·.id)).Nodup := by
    decide
  exact hrepeats hchain.distinct

end Runs

end PiMono
