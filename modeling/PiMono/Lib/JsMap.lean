import Mathlib.Data.List.Basic
import Mathlib.Data.List.Induction
import Mathlib.Data.List.Nodup

/-!
# Maps that remember the order of insertion

The fields of an object and the entries of a `Map` are pairs in the order their
keys were first set; setting a key again keeps its place, deleting it forgets
it. `setField`, `removeField` and `fieldValue?` are the three operations on the
pairs, `JsMap` is a list of pairs that carries the fact that its keys differ.
-/

namespace PiMono

/-! ## Pairs in the order they were first set -/

section Fields

variable {κ α : Type} [DecidableEq κ]

/-- Set a field: in place if there is one of that name, at the end otherwise. -/
def setField (fields : List (κ × α)) (key : κ) (v : α) : List (κ × α) :=
  match fields with
  | [] => [(key, v)]
  | (k, w) :: rest => if k = key then (key, v) :: rest else (k, w) :: setField rest key v

/-- Remove a field. -/
def removeField (fields : List (κ × α)) (key : κ) : List (κ × α) :=
  fields.filter (·.1 ≠ key)

/-- Read a field. -/
def fieldValue? (fields : List (κ × α)) (key : κ) : Option α :=
  (fields.find? (·.1 = key)).map Prod.snd

theorem fieldValue?_cons (f : κ × α) (fields : List (κ × α)) (key : κ) :
    fieldValue? (f :: fields) key = if f.1 = key then some f.2 else fieldValue? fields key := by
  by_cases hkey : f.1 = key
  · simp [fieldValue?, hkey]
  · simp [fieldValue?, hkey]

theorem fieldValue?_eq_none {fields : List (κ × α)} {key : κ} (h : key ∉ fields.map Prod.fst) :
    fieldValue? fields key = none := by
  rw [fieldValue?, Option.map_eq_none_iff, List.find?_eq_none]
  intro f hf heq
  exact h (List.mem_map.mpr ⟨f, hf, of_decide_eq_true heq⟩)

theorem mem_of_fieldValue? {fields : List (κ × α)} {key : κ} {v : α}
    (h : fieldValue? fields key = some v) : (key, v) ∈ fields := by
  obtain ⟨f, hfind, rfl⟩ := Option.map_eq_some_iff.mp h
  obtain rfl : f.1 = key := by simpa using List.find?_some hfind
  exact List.mem_of_find?_eq_some hfind

theorem keys_setField : ∀ (fields : List (κ × α)) (key : κ) (v : α),
    (setField fields key v).map Prod.fst
      = if key ∈ fields.map Prod.fst then fields.map Prod.fst else fields.map Prod.fst ++ [key]
  | [], key, v => by simp [setField]
  | (k, w) :: rest, key, v => by
    have ih := keys_setField rest key v
    rw [setField]
    by_cases hk : k = key
    · simp [hk]
    · rw [if_neg hk, List.map_cons, ih]
      have hk' : ¬ key = k := fun h => hk h.symm
      simp only [List.map_cons, List.mem_cons, hk', false_or]
      split <;> rfl

theorem nodup_setField {fields : List (κ × α)} {key : κ} {v : α}
    (h : (fields.map Prod.fst).Nodup) : ((setField fields key v).map Prod.fst).Nodup := by
  rw [keys_setField]
  split
  · exact h
  · rename_i hnot
    exact List.nodup_append.mpr ⟨h, List.nodup_singleton _, by
      rintro a ha b hb rfl
      rw [List.mem_singleton] at hb
      exact hnot (hb ▸ ha)⟩

theorem mem_setField {fields : List (κ × α)} {key : κ} {v : α}
    {f : κ × α} (h : f ∈ setField fields key v) : f ∈ fields ∨ f = (key, v) := by
  induction fields with
  | nil => exact Or.inr (List.mem_singleton.mp h)
  | cons g rest ih =>
    rw [setField] at h
    split at h
    · rcases List.mem_cons.mp h with h | h
      · exact Or.inr h
      · exact Or.inl (List.mem_cons_of_mem _ h)
    · rcases List.mem_cons.mp h with h | h
      · exact Or.inl (h ▸ List.mem_cons_self)
      · exact (ih h).imp_left (List.mem_cons_of_mem _)

/-- A field of a new name goes to the end. -/
theorem setField_of_notMem : ∀ {fields : List (κ × α)} {key : κ} (v : α),
    key ∉ fields.map Prod.fst → setField fields key v = fields ++ [(key, v)]
  | [], key, v, _ => rfl
  | (k, w) :: rest, key, v, h => by
    have hk : k ≠ key := fun heq => h (by simp [heq])
    have hrest : key ∉ rest.map Prod.fst := fun hmem => h (List.mem_cons_of_mem _ hmem)
    rw [setField, if_neg hk, setField_of_notMem v hrest, List.cons_append]

theorem fieldValue?_setField : ∀ (fields : List (κ × α)) (key k : κ) (v : α),
    fieldValue? (setField fields key v) k
      = if key = k then some v else fieldValue? fields k
  | [], key, k, v => by
    by_cases h : key = k <;> simp [setField, fieldValue?, h]
  | (j, w) :: rest, key, k, v => by
    have ih := fieldValue?_setField rest key k v
    rw [setField]
    by_cases hj : j = key
    · subst hj
      by_cases h : j = k <;> simp [fieldValue?, h]
    · rw [if_neg hj]
      by_cases h : j = k
      · have hk : ¬ key = k := fun h' => hj (h.trans h'.symm)
        simp [fieldValue?, h, hk]
      · have hcons : ∀ tail : List (κ × α),
            fieldValue? ((j, w) :: tail) k = fieldValue? tail k := by
          intro tail
          simp [fieldValue?, h]
        rw [hcons, hcons, ih]

/-- Setting a field to its value changes nothing. -/
theorem setField_self {key : κ} {v : α} : ∀ {fields : List (κ × α)},
    fieldValue? fields key = some v → setField fields key v = fields
  | [], h => by cases h
  | (k, w) :: rest, h => by
    rw [setField]
    by_cases hk : k = key
    · subst hk
      simp [fieldValue?] at h
      rw [if_pos rfl, h]
    · rw [if_neg hk, setField_self (by simpa [fieldValue?, hk] using h)]

theorem fieldValue?_removeField (fields : List (κ × α)) (key k : κ) :
    fieldValue? (removeField fields key) k = if key = k then none else fieldValue? fields k := by
  induction fields with
  | nil => simp [removeField, fieldValue?]
  | cons f rest ih =>
    rw [removeField, List.filter_cons] at *
    by_cases hf : f.1 = key
    · simp only [hf, ne_eq, not_true_eq_false, decide_false, Bool.false_eq_true, if_false]
      rw [ih]
      by_cases hk : key = k
      · simp [hk]
      · simp [hk, fieldValue?, hf]
    · simp only [ne_eq, hf, not_false_eq_true, decide_true, if_true]
      by_cases hk : f.1 = k
      · have : ¬ key = k := fun h => hf (hk.trans h.symm)
        simp [fieldValue?, hk, this]
      · simp only [fieldValue?, List.find?_cons, hk, decide_false] at ih ⊢
        exact ih

theorem fieldValue?_of_mem : ∀ {fields : List (κ × α)}, (fields.map Prod.fst).Nodup →
    ∀ {f : κ × α}, f ∈ fields → fieldValue? fields f.1 = some f.2
  | (k, w) :: rest, hnd, f, hf => by
    rw [List.map_cons, List.nodup_cons] at hnd
    rcases List.mem_cons.mp hf with rfl | hf
    · simp [fieldValue?]
    · have hmem : f.1 ∈ rest.map Prod.fst := List.mem_map_of_mem hf
      have hne : ¬ k = f.1 := fun heq => hnd.1 (heq ▸ hmem)
      have ih := fieldValue?_of_mem hnd.2 hf
      rw [fieldValue?, List.find?_cons_of_neg (by simpa using hne)]
      exact ih

end Fields

/-! ## Maps -/

/-- A `Map`: its entries, in insertion order. -/
structure JsMap (κ α : Type) where
  entries : List (κ × α)
  nodup : (entries.map Prod.fst).Nodup

namespace JsMap

@[ext] theorem ext {κ α : Type} {m n : JsMap κ α} (h : m.entries = n.entries) : m = n := by
  cases m
  cases n
  simpa using h

variable {κ α : Type} [DecidableEq κ]

instance [DecidableEq α] : DecidableEq (JsMap κ α) := fun m n =>
  decidable_of_iff (m.entries = n.entries) ⟨ext, fun h => by rw [h]⟩

/-- `new Map()` -/
def empty : JsMap κ α := ⟨[], List.nodup_nil⟩

/-- `m.set(k, v)` -/
def set (m : JsMap κ α) (k : κ) (v : α) : JsMap κ α :=
  ⟨setField m.entries k v, nodup_setField m.nodup⟩

/-- `m.delete(k)` -/
def delete (m : JsMap κ α) (k : κ) : JsMap κ α :=
  ⟨removeField m.entries k, m.nodup.sublist (List.filter_sublist.map _)⟩

/-- `m.get(k)` -/
def get? (m : JsMap κ α) (k : κ) : Option α := fieldValue? m.entries k

/-- `m.has(k)` -/
def has (m : JsMap κ α) (k : κ) : Bool := (m.get? k).isSome

/-- `[...m.keys()]` -/
def keys (m : JsMap κ α) : List κ := m.entries.map Prod.fst

@[simp] theorem get?_empty (k : κ) : (empty : JsMap κ α).get? k = none := rfl

@[simp] theorem get?_set (m : JsMap κ α) (k j : κ) (v : α) :
    (m.set k v).get? j = if k = j then some v else m.get? j :=
  fieldValue?_setField m.entries k j v

@[simp] theorem get?_delete (m : JsMap κ α) (k j : κ) :
    (m.delete k).get? j = if k = j then none else m.get? j :=
  fieldValue?_removeField m.entries k j

/-- What is left behind a deletion was there before. -/
theorem get?_of_delete {m : JsMap κ α} {k j : κ} {v : α} (h : (m.delete k).get? j = some v) :
    m.get? j = some v := by
  rw [get?_delete] at h
  split at h
  · cases h
  · exact h

theorem has_iff {m : JsMap κ α} {k : κ} : m.has k = true ↔ k ∈ m.keys := by
  rw [has, get?, fieldValue?, Option.isSome_map, List.find?_isSome, keys]
  simp [List.mem_map]

theorem get?_eq_none_iff {m : JsMap κ α} {k : κ} : m.get? k = none ↔ k ∉ m.keys := by
  rw [← has_iff, has]
  cases m.get? k <;> simp

theorem keys_set (m : JsMap κ α) (k : κ) (v : α) :
    (m.set k v).keys = if k ∈ m.keys then m.keys else m.keys ++ [k] :=
  keys_setField m.entries k v

/-- A new key goes to the end. -/
theorem set_of_notMem {m : JsMap κ α} {k : κ} (h : k ∉ m.keys) (v : α) :
    (m.set k v).entries = m.entries ++ [(k, v)] :=
  setField_of_notMem v h

/-- The map of some pairs, later ones over earlier ones. -/
def ofFields (fields : List (κ × α)) : JsMap κ α := fields.foldl (fun m f => m.set f.1 f.2) empty

theorem mem_keys_ofFields {fields : List (κ × α)} {k : κ} :
    k ∈ (ofFields fields).keys ↔ k ∈ fields.map Prod.fst := by
  induction fields using List.reverseRecOn with
  | nil => simp [ofFields, keys, empty]
  | append_singleton fields f ih =>
    rw [ofFields, List.foldl_append, ← ofFields, List.foldl_cons, List.foldl_nil, keys_set]
    split
    · rename_i hmem
      simp only [List.map_append, List.map_cons, List.map_nil, List.mem_append, ← ih]
      exact ⟨Or.inl, fun h => h.elim id fun hf => List.mem_singleton.mp hf ▸ hmem⟩
    · simp [ih]

/-- Pairs with distinct keys are kept as they are. -/
theorem entries_ofFields {fields : List (κ × α)} (h : (fields.map Prod.fst).Nodup) :
    (ofFields fields).entries = fields := by
  induction fields using List.reverseRecOn with
  | nil => rfl
  | append_singleton fields f ih =>
    rw [List.map_append] at h
    have ⟨hfields, _, hdisj⟩ := List.nodup_append.mp h
    have hnew : f.1 ∉ (ofFields fields).keys := fun hmem =>
      hdisj f.1 (mem_keys_ofFields.mp hmem) f.1 (by simp) rfl
    rw [ofFields, List.foldl_append, ← ofFields, List.foldl_cons, List.foldl_nil,
      set_of_notMem hnew, ih hfields]

@[simp] theorem ofFields_entries (m : JsMap κ α) : ofFields m.entries = m :=
  ext (entries_ofFields m.nodup)

/-- Setting all of a map over a map of its first key alone. -/
theorem foldl_set_entries {m : JsMap κ α} {k : κ} (h : m.keys.head? = some k) (v : α) :
    m.entries.foldl (fun m f => m.set f.1 f.2) (ofFields [(k, v)]) = m := by
  obtain ⟨⟨k', w⟩, rest, hm⟩ : ∃ f rest, m.entries = f :: rest := by
    cases hm : m.entries with
    | nil => simp [keys, hm] at h
    | cons f rest => exact ⟨f, rest, rfl⟩
  obtain rfl : k' = k := by simpa [keys, hm] using h
  have hset : (ofFields [(k', v)]).set k' w = (empty : JsMap κ α).set k' w := by
    ext1
    simp [ofFields, set, empty, setField]
  have hall : ofFields m.entries = m := ofFields_entries m
  rw [hm, ofFields, List.foldl_cons] at hall
  rw [hm, List.foldl_cons, hset, hall]

theorem mem_of_get? {m : JsMap κ α} {k : κ} {v : α} (h : m.get? k = some v) :
    (k, v) ∈ m.entries := mem_of_fieldValue? h

/-- A deletion takes one entry out. -/
theorem perm_delete {m : JsMap κ α} {k : κ} {v : α} (h : m.get? k = some v) :
    m.entries.Perm ((k, v) :: (m.delete k).entries) := by
  obtain ⟨as, bs, hsplit⟩ := List.mem_iff_append.mp (mem_of_get? h)
  have hnd := m.nodup
  rw [hsplit, List.map_append, List.map_cons, List.nodup_middle, List.nodup_cons] at hnd
  have hne : ∀ g ∈ as ++ bs, g.1 ≠ k := by
    intro g hg heq
    refine hnd.1 ?_
    rw [← List.map_append]
    exact List.mem_map.mpr ⟨g, hg, heq⟩
  have hrest : (m.delete k).entries = as ++ bs := by
    show m.entries.filter _ = _
    rw [hsplit, List.filter_append, List.filter_cons_of_neg (by simp), ← List.filter_append]
    exact List.filter_eq_self.mpr fun g hg => by simpa using hne g hg
  rw [hrest, hsplit]
  exact List.perm_middle

/-- `m.delete(k)` for every `k` of a list. -/
def deleteAll (m : JsMap κ α) (ks : List κ) : JsMap κ α := ks.foldl delete m

theorem entries_deleteAll (m : JsMap κ α) (ks : List κ) :
    (m.deleteAll ks).entries = m.entries.filter (·.1 ∉ ks) := by
  induction ks generalizing m with
  | nil => simp [deleteAll]
  | cons k ks ih =>
    rw [deleteAll, List.foldl_cons, ← deleteAll, ih]
    show (m.entries.filter (·.1 ≠ k)).filter (·.1 ∉ ks) = _
    rw [List.filter_filter]
    refine List.filter_congr fun f _ => ?_
    simp [Bool.and_comm]

/-- Deleting what stands around some pairs leaves these. -/
theorem deleteAll_around {as ms bs : List (κ × α)} {ks : List κ}
    (hnd : ((as ++ ms ++ bs).map Prod.fst).Nodup) (has : ∀ f ∈ as, f.1 ∈ ks)
    (hms : ∀ f ∈ ms, f.1 ∉ ks) (hbs : ∀ f ∈ bs, f.1 ∈ ks) :
    ((ofFields (as ++ ms ++ bs)).deleteAll ks).entries = ms := by
  have hnone : ∀ fs : List (κ × α), (∀ f ∈ fs, f.1 ∈ ks) → fs.filter (·.1 ∉ ks) = [] :=
    fun fs hfs => List.filter_eq_nil_iff.mpr fun f hf => by simpa using hfs f hf
  have hall : ms.filter (·.1 ∉ ks) = ms :=
    List.filter_eq_self.mpr fun f hf => by simpa using hms f hf
  rw [entries_deleteAll, entries_ofFields hnd, List.filter_append, List.filter_append,
    hnone as has, hnone bs hbs, hall, List.nil_append, List.append_nil]

theorem has_deleteAll {m : JsMap κ α} {ks : List κ} {k : κ} (h : k ∈ ks) :
    (m.deleteAll ks).has k = false := by
  rw [← Bool.not_eq_true, has_iff, keys, entries_deleteAll, List.mem_map]
  rintro ⟨f, hf, rfl⟩
  have hnot := (List.mem_filter.mp hf).2
  simp [h] at hnot

/-- The map of some items by their key, later items over earlier ones. -/
def index {β : Type} (key : β → κ) (items : List β) : JsMap κ β :=
  items.foldl (fun m b => m.set (key b) b) empty

section Index

variable {β : Type} {key : β → κ}

@[simp] theorem index_nil : index key ([] : List β) = empty := rfl

theorem index_append_singleton (items : List β) (b : β) :
    index key (items ++ [b]) = (index key items).set (key b) b := by
  simp [index]

/-- With distinct keys nothing is overwritten. -/
theorem entries_index {items : List β} (h : (items.map key).Nodup) :
    (index key items).entries = items.map fun b => (key b, b) := by
  induction items using List.reverseRecOn with
  | nil => rfl
  | append_singleton items b ih =>
    rw [List.map_append] at h
    have ⟨hitems, _, hdisj⟩ := List.nodup_append.mp h
    have hkeys : (index key items).keys = items.map key := by
      rw [keys, ih hitems, List.map_map]
      rfl
    have hnew : key b ∉ (index key items).keys := by
      rw [hkeys]
      exact fun hmem => hdisj _ hmem (key b) (by simp) rfl
    rw [index_append_singleton, set_of_notMem hnew, ih hitems, List.map_append]
    rfl

theorem keys_index {items : List β} (h : (items.map key).Nodup) :
    (index key items).keys = items.map key := by
  rw [keys, entries_index h, List.map_map]
  rfl

theorem get?_index {items : List β} (h : (items.map key).Nodup) (k : κ) :
    (index key items).get? k = items.find? (key · = k) := by
  rw [get?, fieldValue?, entries_index h, List.find?_map, Option.map_map]
  show Option.map id _ = _
  rw [Option.map_id]
  rfl

/-- An item is found under its key. -/
theorem get?_index_of_mem {items : List β} (h : (items.map key).Nodup) {b : β} (hb : b ∈ items) :
    (index key items).get? (key b) = some b := by
  rw [get?_index h]
  induction items with
  | nil => cases hb
  | cons c items ih =>
    rw [List.map_cons, List.nodup_cons] at h
    rcases List.mem_cons.mp hb with rfl | hb
    · simp
    · have hne : key c ≠ key b := fun heq => h.1 (heq ▸ List.mem_map_of_mem hb)
      rw [List.find?_cons_of_neg (by simpa using hne)]
      exact ih h.2 hb

theorem mem_of_get?_index {items : List β} (h : (items.map key).Nodup) {k : κ} {b : β}
    (hb : (index key items).get? k = some b) : b ∈ items ∧ key b = k := by
  rw [get?_index h] at hb
  exact ⟨List.mem_of_find?_eq_some hb, by simpa using List.find?_some hb⟩

end Index

end JsMap

end PiMono
