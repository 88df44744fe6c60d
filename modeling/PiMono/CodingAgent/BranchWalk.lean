import PiMono.CodingAgent.SessionFork
import PiMono.Lib.ParentCycles

/-!
# Walks along a branch

`buildSessionPath` and `getBranch` (`session-manager.ts:349-375`, `:1367-1377`) and
`collectEntriesForBranchSummary` (`branch-summarization.ts:108-146`) follow parent ids
through the index of the session. `loadEntriesFromFile` checks no ids, so an id is whatever
JSON the file has here, and a key of the index (`IdKey`). `branchWalks_return_iff` says for
which entries the walks end; `getBranch_eq` that where ids are strings the walk is that of
`SessionManager.getBranch`.
-/

namespace PiMono

namespace BranchWalk

/-- A key of a `Map`: `undefined` or a JSON value. An object or an array is a key that no
other value is, that of its own entry. -/
inductive IdKey where
  | value (id : Option JsValue)
  | object (entry : FileEntry)
  deriving DecidableEq

namespace IdKey

def null : IdKey := .value (some .null)

def str (id : JsString) : IdKey := .value (some (.str id))

/-- `if (id)` -/
def truthy : IdKey → Bool
  | value id => id.any (·.truthy)
  | object _ => true

/-- `id == null` -/
def isNullish (id : IdKey) : Bool := id = .value none ∨ id = null

theorem ne_null_of_truthy {id : IdKey} (h : id.truthy = true) : id ≠ null := by
  rintro rfl
  cases h

theorem isNullish_of_truthy {id : IdKey} (h : id.truthy = true) : id.isNullish = false := by
  have hdefined : id ≠ .value none := by
    rintro rfl
    cases h
  simp [isNullish, hdefined, ne_null_of_truthy h]

end IdKey

/-- `entry.id`, as a key -/
def idKey (e : FileEntry) : IdKey :=
  let id := e.raw.get? (js "id")
  if id.any fun id => id.isObject || id.items?.isSome then .object e else .value id

/-- `current.parentId ? … : undefined`: no entry has an object for a key that is another's. -/
def parentKey (e : FileEntry) : Option IdKey :=
  (some (IdKey.value (e.raw.get? (js "parentId")))).filter (·.truthy)

/-- `buildEntryIndex` -/
def buildEntryIndex (entries : List FileEntry) (byId : Option (JsMap IdKey FileEntry)) :
    JsMap IdKey FileEntry :=
  byId.getD (JsMap.index idKey entries)

/-- `buildSessionPath`; `none` where the walk does not return. -/
def buildSessionPath (entries : List FileEntry) (leafId : IdKey)
    (byId : Option (JsMap IdKey FileEntry)) : Option (List FileEntry) :=
  let index := buildEntryIndex entries byId
  if leafId = .null then some []
  else
    let leaf := (((some leafId).filter (·.truthy)).bind index.get?).or entries.getLast?
    (walkUp index.get? parentKey (index.entries.length + 1) leaf).map List.reverse

/-- What the walks read of a session. -/
structure Session where
  entries : List FileEntry
  byId : JsMap IdKey FileEntry
  leafId : IdKey

/-- `_buildIndex`, for the entries behind the header -/
def Session.buildIndex (entries : List FileEntry) : Session where
  entries := entries
  byId := JsMap.index idKey entries
  leafId := (entries.getLast?.map idKey).getD .null

/-- What `collectEntriesForBranchSummary` returns. -/
structure CollectEntriesResult where
  entries : List FileEntry
  commonAncestorId : IdKey
  deriving DecidableEq

namespace Session

/-- `getBranch`; `none` where it does not return. -/
def getBranch (session : Session) (fromId : IdKey) : Option (List FileEntry) :=
  let startId := if fromId.isNullish then session.leafId else fromId
  (walkUp session.byId.get? parentKey session.byId.entries.length
    (((some startId).filter (·.truthy)).bind session.byId.get?)).map List.reverse

/-- The parent of an entry, unless it is the common ancestor. -/
def parentBelow (commonAncestorId : IdKey) (e : FileEntry) : Option IdKey :=
  (parentKey e).filter (· ≠ commonAncestorId)

/-- The second loop of `collectEntriesForBranchSummary`, from the old leaf to the common
ancestor; `none` where it does not return. -/
def collectBelow (session : Session) (oldLeafId commonAncestorId : IdKey) :
    Option (List FileEntry) :=
  let current := (some oldLeafId).filter (· ≠ commonAncestorId)
  (walkUp session.byId.get? (parentBelow commonAncestorId) session.byId.entries.length
    (current.bind session.byId.get?)).map List.reverse

/-- `collectEntriesForBranchSummary`; `none` where it does not return. -/
def collectEntriesForBranchSummary (session : Session) (oldLeafId targetId : IdKey) :
    Option CollectEntriesResult :=
  if oldLeafId.truthy then do
    let oldPath ← session.getBranch oldLeafId
    let targetPath ← session.getBranch targetId
    let commonAncestorId :=
      ((targetPath.reverse.map idKey).find? (· ∈ oldPath.map idKey)).getD .null
    let entries ← session.collectBelow oldLeafId commonAncestorId
    some ⟨entries, commonAncestorId⟩
  else some ⟨[], .null⟩

end Session

/-- No entry is its own ancestor; of entries with the same id the last one counts. -/
def AcyclicEntries (es : List FileEntry) : Prop :=
  AcyclicLinks (JsMap.index idKey es).get? parentKey

/-! ## One walk -/

theorem mem_values {index : JsMap IdKey FileEntry} {k : IdKey} {e : FileEntry}
    (h : index.get? k = some e) : e ∈ index.entries.map Prod.snd :=
  List.mem_map_of_mem (f := Prod.snd) (JsMap.mem_of_get? h)

/-- The parent link of an entry is a truthy key. -/
theorem parentOf_get? {index : JsMap IdKey FileEntry} {a b : FileEntry}
    (h : ParentOf index.get? parentKey a b) : ∃ k : IdKey, k.truthy ∧ index.get? k = some b := by
  obtain ⟨k, hk, hget⟩ := Option.bind_eq_some_iff.mp h
  exact ⟨k, (Option.filter_eq_some_iff.mp hk).2, hget⟩

namespace Session

variable {session : Session}

theorem getBranch_isSome_iff (fromId : IdKey) : (session.getBranch fromId).isSome = true ↔
    WalkEnds session.byId.get? parentKey
      (((some (if fromId.isNullish then session.leafId else fromId)).filter (·.truthy)).bind
        session.byId.get?) := by
  rw [getBranch, Option.isSome_map]
  refine walkUp_isSome_iff (fun k a h => mem_values h) (fun a ha => ?_) (by simp)
  obtain ⟨k, -, hk⟩ := Option.bind_eq_some_iff.mp ha
  exact mem_values hk

/-- `getBranch` returns from everywhere exactly if there is no cycle. -/
theorem getBranch_returns_iff : (∀ fromId, (session.getBranch fromId).isSome = true) ↔
    AcyclicLinks session.byId.get? parentKey := by
  constructor
  · intro h
    refine (walkEnds_iff_acyclic (S := fun start => ∀ a, start = some a → ∃ k : IdKey,
      k.truthy ∧ session.byId.get? k = some a) (fun k a h => mem_values h) ?_).mp ?_
    · rintro a b hab _ ⟨⟩
      exact parentOf_get? hab
    · intro start hstart
      cases start with
      | none => exact .root
      | some a =>
        obtain ⟨k, hk, hget⟩ := hstart a rfl
        have hends := (getBranch_isSome_iff k).mp (h k)
        rwa [if_neg (by simp [IdKey.isNullish_of_truthy hk]), Option.filter_some, if_pos hk,
          Option.bind_some, hget] at hends
  · exact fun h fromId => (getBranch_isSome_iff fromId).mpr
      (walkEnds_of_acyclic (fun k a h => mem_values h) h _)

theorem collectBelow_isSome {oldLeafId : IdKey} (commonAncestorId : IdKey)
    (h : AcyclicLinks session.byId.get? parentKey) :
    (session.collectBelow oldLeafId commonAncestorId).isSome = true := by
  rw [collectBelow, Option.isSome_map]
  refine (walkUp_isSome_iff (fun k a h => mem_values h) (fun a ha => ?_) (by simp)).mpr ?_
  · obtain ⟨k, -, hk⟩ := Option.bind_eq_some_iff.mp ha
    exact mem_values hk
  · refine (walkEnds_of_acyclic (fun k a h => mem_values h) h _).stopping fun a => ?_
    rw [parentBelow]
    cases parentKey a with
    | none => exact Or.inl rfl
    | some p =>
      rw [Option.filter_some]
      split
      · exact Or.inl rfl
      · exact Or.inr rfl

/-- Collecting returns where both branches can be walked. -/
theorem collectEntries_isSome (h : AcyclicLinks session.byId.get? parentKey)
    (oldLeafId targetId : IdKey) :
    (session.collectEntriesForBranchSummary oldLeafId targetId).isSome = true := by
  rw [collectEntriesForBranchSummary]
  split
  · have hbranch := getBranch_returns_iff.mpr h
    obtain ⟨oldPath, hold⟩ := Option.isSome_iff_exists.mp (hbranch oldLeafId)
    obtain ⟨targetPath, htarget⟩ := Option.isSome_iff_exists.mp (hbranch targetId)
    simp only [hold, htarget, Option.bind_eq_bind, Option.bind_some]
    have hbelow : ∀ common, (session.collectBelow oldLeafId common).isSome = true :=
      fun common => collectBelow_isSome common h
    obtain ⟨entries, hentries⟩ := Option.isSome_iff_exists.mp (hbelow
      (((targetPath.reverse.map idKey).find? (· ∈ oldPath.map idKey)).getD .null))
    rw [hentries]
    rfl
  · rfl

end Session

/-- `buildSessionPath` walks from any entry that an id names. -/
theorem buildSessionPath_returns_iff (es : List FileEntry)
    (byId : Option (JsMap IdKey FileEntry))
    (hbyId : ∀ index, byId = some index → index = JsMap.index idKey es) :
    (∀ leafId, (buildSessionPath es leafId byId).isSome = true) ↔ AcyclicEntries es := by
  have hindex : buildEntryIndex es byId = JsMap.index idKey es := by
    cases byId with
    | none => rfl
    | some index => exact hbyId index rfl
  rw [AcyclicEntries]
  generalize JsMap.index idKey es = index at hindex ⊢
  have hvalues : ∀ k a, index.get? k = some a → a ∈ index.entries.map Prod.snd :=
    fun k a h => mem_values h
  constructor
  · intro h
    refine (walkEnds_iff_acyclic (S := fun start => ∀ a, start = some a → ∃ k : IdKey,
      k.truthy ∧ index.get? k = some a) hvalues ?_).mp ?_
    · rintro a b hab _ ⟨⟩
      exact parentOf_get? hab
    · intro start hstart
      cases start with
      | none => exact .root
      | some a =>
        obtain ⟨k, hk, hget⟩ := hstart a rfl
        obtain ⟨path, hpath⟩ := Option.isSome_iff_exists.mp (h k)
        rw [buildSessionPath, hindex] at hpath
        dsimp only at hpath
        rw [if_neg (IdKey.ne_null_of_truthy hk), Option.filter_some, if_pos hk, Option.bind_some,
          hget, Option.some_or] at hpath
        obtain ⟨walked, hwalk, -⟩ := Option.map_eq_some_iff.mp hpath
        exact walkEnds_of_walkUp hwalk
  · intro h leafId
    rw [buildSessionPath, hindex]
    dsimp only
    split
    · rfl
    · rw [Option.isSome_map]
      cases hleaf : (((some leafId).filter (·.truthy)).bind index.get?).or es.getLast? with
      | none => rfl
      | some leaf =>
        -- the last entry is walked from as well: one more than the index has
        rw [walkUp, Option.isSome_map]
        refine (walkUp_isSome_iff hvalues (fun a ha => ?_) (by simp)).mpr
          (walkEnds_of_acyclic hvalues h _)
        obtain ⟨k, -, hk⟩ := Option.bind_eq_some_iff.mp ha
        exact hvalues k a hk

/-- **When the walks along a branch return**, over any list of entries and in a session that
holds it: exactly where no entry is its own ancestor. -/
theorem branchWalks_return_iff (es : List FileEntry) :
    let session := Session.buildIndex es
    ((∀ leafId, (buildSessionPath es leafId none).isSome = true) ↔ AcyclicEntries es) ∧
      ((∀ leafId, (buildSessionPath session.entries leafId (some session.byId)).isSome = true) ∧
          (∀ fromId, (session.getBranch fromId).isSome = true) ∧
          (∀ oldLeafId targetId,
            (session.collectEntriesForBranchSummary oldLeafId targetId).isSome = true) ↔
        AcyclicEntries es) := by
  refine ⟨buildSessionPath_returns_iff _ none nofun, ?_⟩
  have hpath := buildSessionPath_returns_iff es (some (JsMap.index idKey es))
    fun index hindex => (Option.some.inj hindex).symm
  have hbranch := @Session.getBranch_returns_iff (.buildIndex es)
  constructor
  · exact fun h => hpath.mp h.1
  · exact fun h => ⟨hpath.mpr h, hbranch.mpr h, Session.collectEntries_isSome h⟩

/-- A file with a header of the current version and one entry. -/
def linkedBytes (id parentId : JsValue) : List UInt8 :=
  encodeLines [.header (js "s") (js "t") (js "/work") none,
    ⟨.object [(js "type", .str (js "session_info")), (js "id", id), (js "parentId", parentId)]⟩]

/-- No walk from an entry that is its own parent returns. -/
def Loops (id : JsValue) : Prop :=
  let es := loadEntries (linkedBytes id id)
  let session := Session.buildIndex (es.filter (!·.isHeader))
  (session.getBranch (.value (some id))).isSome = false ∧
    (session.collectEntriesForBranchSummary (.value (some id)) (.value (some id))).isSome
      = false ∧
    (buildSessionPath es (.value (some id)) none).isSome = false

/-- The id is a string, or a number. -/
theorem branchWalks_loop : Loops (.str (js "a")) ∧ Loops (.nat 1) := by
  unfold Loops
  decide +kernel

/-! ## Ids that are strings -/

/-- The id is a string, and the parent id a string or `null`. -/
def StringIds (e : FileEntry) : Prop :=
  (∃ id, e.raw.get? (js "id") = some (.str id)) ∧
    ∃ parentId : Option JsString,
      e.raw.get? (js "parentId") = some (parentId.elim .null .str)

theorem StringIds.idKey_eq {e : FileEntry} (h : StringIds e) : idKey e = .str e.id := by
  obtain ⟨id, hid⟩ := h.1
  rw [FileEntry.id, FileEntry.strD, JsValue.strField?, idKey, hid]
  rfl

theorem StringIds.parentKey_eq {e : FileEntry} (h : StringIds e) :
    parentKey e = e.parentLink.map .str := by
  obtain ⟨parentId, hparent⟩ := h.2
  rw [FileEntry.parentLink, FileEntry.parentId, JsValue.strField?, parentKey, hparent]
  cases parentId with
  | none => rfl
  | some id => cases id <;> rfl

theorem setField_str (fields : List (JsString × FileEntry)) (id : JsString) (e : FileEntry) :
    setField (fields.map fun field => (IdKey.str field.1, field.2)) (.str id) e
      = (setField fields id e).map fun field => (IdKey.str field.1, field.2) := by
  induction fields with
  | nil => rfl
  | cons field fields ih =>
    have hinj : IdKey.str field.1 = .str id ↔ field.1 = id := by
      simp [IdKey.str, JsValue.str]
    rw [List.map_cons, setField, setField, ih]
    by_cases heq : field.1 = id
    · rw [if_pos (hinj.mpr heq), if_pos heq, List.map_cons]
    · rw [if_neg (mt hinj.mp heq), if_neg heq, List.map_cons]

/-- The index has the same entries. -/
theorem entries_index_str {es : List FileEntry} (h : ∀ e ∈ es, StringIds e) :
    (JsMap.index idKey es).entries
      = (JsMap.index (·.id) es).entries.map fun field => (IdKey.str field.1, field.2) := by
  induction es using List.reverseRecOn with
  | nil => rfl
  | append_singleton es e ih =>
    have he := (h e (by simp)).idKey_eq
    rw [JsMap.index_append_singleton, JsMap.index_append_singleton, he]
    show setField (JsMap.index idKey es).entries (.str e.id) e = _
    rw [ih fun e he => h e (List.mem_append_left _ he), setField_str]
    rfl

theorem get?_index_str {es : List FileEntry} (h : ∀ e ∈ es, StringIds e) (id : JsString) :
    (JsMap.index idKey es).get? (.str id) = (JsMap.index (·.id) es).get? id := by
  have hinj : ∀ field : JsString × FileEntry,
      decide (IdKey.str field.1 = .str id) = decide (field.1 = id) := by
    intro field
    simp [IdKey.str, JsValue.str]
  rw [JsMap.get?, JsMap.get?, fieldValue?, fieldValue?, entries_index_str h, List.find?_map,
    Option.map_map]
  show Option.map _ (List.find? (fun field : JsString × FileEntry =>
    decide (IdKey.str field.1 = .str id)) _) = _
  simp only [hinj]
  rfl

theorem mem_of_get?_index {es : List FileEntry} {k : IdKey} {e : FileEntry}
    (h : (JsMap.index idKey es).get? k = some e) : e ∈ es := by
  induction es using List.reverseRecOn with
  | nil => cases h
  | append_singleton es last ih =>
    rw [JsMap.index_append_singleton, JsMap.get?_set] at h
    split at h
    · rw [Option.some.inj h]
      exact List.mem_append_right _ (List.mem_singleton_self e)
    · exact List.mem_append_left _ (ih h)

/-- **Where ids are strings**, the walk is that of the session manager. -/
theorem getBranch_eq {m : SessionManager} (hbyId : m.byId = JsMap.index (·.id) m.getEntries)
    (hids : ∀ e ∈ m.getEntries, StringIds e) {id : JsString} (hid : id ≠ []) :
    (Session.buildIndex m.getEntries).getBranch (.str id) = m.getBranch (some id) := by
  have hget := get?_index_str hids
  have hlength : (JsMap.index idKey m.getEntries).entries.length = m.byId.entries.length := by
    rw [hbyId, entries_index_str hids, List.length_map]
  have hmem : ∀ k e, (JsMap.index idKey m.getEntries).get? k = some e → e ∈ m.getEntries :=
    fun _ _ h => mem_of_get?_index h
  have htruthy : (IdKey.str id).truthy = true := decide_eq_true hid
  rw [Session.getBranch, SessionManager.getBranch]
  dsimp only [Session.buildIndex]
  rw [if_neg (by simp [IdKey.isNullish_of_truthy htruthy]), Option.filter_some, if_pos htruthy,
    Option.some_or, Option.filter_some, if_pos (decide_eq_true hid), Option.bind_some,
    Option.bind_some, hget, hlength, ← hbyId]
  congr 1
  refine walkUp_congr (S := (· ∈ m.getEntries)) (fun e he => ?_) (fun e e' _ h => ?_) _ _
    (fun e he => ?_)
  · rw [(hids e he).parentKey_eq, hbyId]
    cases e.parentLink with
    | none => rfl
    | some parent => exact hget parent
  · obtain ⟨k, -, hk⟩ := Option.bind_eq_some_iff.mp h
    exact hmem k e' hk
  · exact hmem (.str id) e ((hget id).trans (hbyId ▸ he))

end BranchWalk

end PiMono
