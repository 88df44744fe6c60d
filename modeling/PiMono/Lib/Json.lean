import PiMono.Lib.JsNumber
import PiMono.Lib.JsMap

/-!
# JSON values

`Json` is the tree, `JsValue` the tree together with the fact that no object in
it has two fields of one name, which is what `JSON.parse` returns and what a
program builds field by field (`JsValue.set`, `JsValue.object`). Fields keep the
order they were first set in. A field whose value is `undefined` is a field that
is not there.
-/

namespace PiMono

/-- A JSON tree. -/
inductive Json where
  | null
  | bool (b : Bool)
  | num (x : JsNumber)
  | str (s : JsString)
  | arr (items : List Json)
  | obj (fields : List (JsString × Json))

namespace Json

mutual

/-- Comparing two trees. -/
def decEq : (v w : Json) → Decidable (v = w)
  | .null, .null => isTrue rfl
  | .bool a, .bool b => decidable_of_iff (a = b) (by rw [Json.bool.injEq])
  | .num a, .num b => decidable_of_iff (a = b) (by rw [Json.num.injEq])
  | .str a, .str b => decidable_of_iff (a = b) (by rw [Json.str.injEq])
  | .arr a, .arr b =>
    match decEqItems a b with
    | isTrue h => isTrue (by rw [h])
    | isFalse h => isFalse fun h' => h (Json.arr.inj h')
  | .obj a, .obj b =>
    match decEqFields a b with
    | isTrue h => isTrue (by rw [h])
    | isFalse h => isFalse fun h' => h (Json.obj.inj h')
  | .null, .bool _ | .null, .num _ | .null, .str _ | .null, .arr _ | .null, .obj _
  | .bool _, .null | .bool _, .num _ | .bool _, .str _ | .bool _, .arr _ | .bool _, .obj _
  | .num _, .null | .num _, .bool _ | .num _, .str _ | .num _, .arr _ | .num _, .obj _
  | .str _, .null | .str _, .bool _ | .str _, .num _ | .str _, .arr _ | .str _, .obj _
  | .arr _, .null | .arr _, .bool _ | .arr _, .num _ | .arr _, .str _ | .arr _, .obj _
  | .obj _, .null | .obj _, .bool _ | .obj _, .num _ | .obj _, .str _ | .obj _, .arr _ =>
    isFalse (by simp)

def decEqItems : (vs ws : List Json) → Decidable (vs = ws)
  | [], [] => isTrue rfl
  | [], _ :: _ => isFalse (by simp)
  | _ :: _, [] => isFalse (by simp)
  | v :: vs, w :: ws =>
    match decEq v w, decEqItems vs ws with
    | isTrue h, isTrue h' => isTrue (by rw [h, h'])
    | isFalse h, _ => isFalse fun h' => h (List.cons.inj h').1
    | _, isFalse h => isFalse fun h' => h (List.cons.inj h').2

def decEqFields : (vs ws : List (JsString × Json)) → Decidable (vs = ws)
  | [], [] => isTrue rfl
  | [], _ :: _ => isFalse (by simp)
  | _ :: _, [] => isFalse (by simp)
  | (j, v) :: vs, (k, w) :: ws =>
    match decEq v w, decEqFields vs ws, (inferInstance : Decidable (j = k)) with
    | isTrue h, isTrue h', isTrue h'' => isTrue (by rw [h, h', h''])
    | isFalse h, _, _ => isFalse fun h' => h (Prod.mk.inj (List.cons.inj h').1).2
    | _, isFalse h, _ => isFalse fun h' => h (List.cons.inj h').2
    | _, _, isFalse h => isFalse fun h' => h (Prod.mk.inj (List.cons.inj h').1).1

end

instance : DecidableEq Json := decEq

/-- No object has two fields of one name. -/
inductive Wf : Json → Prop
  | null : Wf .null
  | bool (b : Bool) : Wf (.bool b)
  | num (x : JsNumber) : Wf (.num x)
  | str (s : JsString) : Wf (.str s)
  | arr {items : List Json} : (∀ v ∈ items, Wf v) → Wf (.arr items)
  | obj {fields : List (JsString × Json)} : (fields.map Prod.fst).Nodup →
    (∀ f ∈ fields, Wf f.2) → Wf (.obj fields)

theorem Wf.item {items : List Json} (h : Wf (.arr items)) : ∀ v ∈ items, Wf v := by
  cases h
  assumption

theorem Wf.field {fields : List (JsString × Json)} (h : Wf (.obj fields)) :
    ∀ f ∈ fields, Wf f.2 := by
  cases h
  assumption

theorem Wf.nodup {fields : List (JsString × Json)} (h : Wf (.obj fields)) :
    (fields.map Prod.fst).Nodup := by
  cases h
  assumption

/-- The fields of an object; any other value has none. -/
def fields : Json → List (JsString × Json)
  | .obj fields => fields
  | _ => []

theorem Wf.of_mem_fields {v : Json} (h : v.Wf) : ∀ f ∈ v.fields, Wf f.2 := by
  cases h with
  | obj _ hwf => exact hwf
  | _ => simp [fields]

mutual

/-- Whether `+` can turn the value into a number or a string. A field `toString` hides
the method of an object, and nothing in JSON can be called instead. -/
def convertible : Json → Bool
  | .arr items => convertibleItems items
  | .obj fields => js "toString" ∉ fields.map Prod.fst
  | .null | .bool _ | .num _ | .str _ => true

/-- `join` turns every item into a string. -/
def convertibleItems : List Json → Bool
  | [] => true
  | v :: vs => convertible v && convertibleItems vs

end

mutual

/-- `String(v)`, of a value that is convertible; `numberText` is the text of a number. -/
def toText (numberText : JsNumber → JsString) : Json → JsString
  | .null => js "null"
  | .bool b => js (if b then "true" else "false")
  | .num x => numberText x
  | .str s => s
  | .arr items => itemsText numberText items
  | .obj _ => js "[object Object]"

/-- `items.join()` -/
def itemsText (numberText : JsNumber → JsString) : List Json → JsString
  | [] => []
  | [v] => itemText numberText v
  | v :: w :: vs => itemText numberText v ++ js "," ++ itemsText numberText (w :: vs)

/-- An item of `join`. -/
def itemText (numberText : JsNumber → JsString) : Json → JsString
  | .null => []
  | .bool b => js (if b then "true" else "false")
  | .num x => numberText x
  | .str s => s
  | .arr items => itemsText numberText items
  | .obj _ => js "[object Object]"

end

end Json

/-! ## Values -/

/-- A value as `JSON.parse` returns it or a program builds it. -/
structure JsValue where
  json : Json
  wf : json.Wf
  deriving DecidableEq

namespace JsValue

@[ext] theorem ext {v w : JsValue} (h : v.json = w.json) : v = w := by
  cases v
  cases w
  simpa using h

def null : JsValue := ⟨.null, .null⟩

def bool (b : Bool) : JsValue := ⟨.bool b, .bool b⟩

def num (x : JsNumber) : JsValue := ⟨.num x, .num x⟩

def nat (n : Nat) : JsValue := num (.ofNat n)

def str (s : JsString) : JsValue := ⟨.str s, .str s⟩

def arr (items : List JsValue) : JsValue :=
  ⟨.arr (items.map json), .arr fun v hv => by
    obtain ⟨w, -, rfl⟩ := List.mem_map.mp hv
    exact w.wf⟩

/-- `{}` -/
def empty : JsValue := ⟨.obj [], .obj (by simp) (by simp)⟩

/-- `v[key] = w`, on an object. -/
def set (v : JsValue) (key : JsString) (w : JsValue) : JsValue :=
  match h : v.json with
  | .obj fields => ⟨.obj (setField fields key w.json), by
      have hwf := h ▸ v.wf
      refine .obj (nodup_setField hwf.nodup) fun f hf => ?_
      rcases mem_setField hf with hf | rfl
      · exact hwf.field f hf
      · exact w.wf⟩
  | _ => v

/-- `delete v[key]`, on an object. -/
def delete (v : JsValue) (key : JsString) : JsValue :=
  match h : v.json with
  | .obj fields => ⟨.obj (removeField fields key), by
      have hwf := h ▸ v.wf
      exact .obj (hwf.nodup.sublist (List.filter_sublist.map _)) fun f hf =>
        hwf.field f (List.mem_filter.mp hf).1⟩
  | _ => v

/-- An object literal: its fields set one after the other. -/
def object (fields : List (JsString × JsValue)) : JsValue :=
  fields.foldl (fun v f => v.set f.1 f.2) empty

/-- `v[key]`; a value that is no object has no fields. -/
def get? (v : JsValue) (key : JsString) : Option JsValue :=
  match h : v.json.fields.find? (·.1 = key) with
  | some f => some ⟨f.2, v.wf.of_mem_fields f (List.mem_of_find?_eq_some h)⟩
  | none => none

def str? (v : JsValue) : Option JsString :=
  match v.json with
  | .str s => some s
  | _ => none

def bool? (v : JsValue) : Option Bool :=
  match v.json with
  | .bool b => some b
  | _ => none

def num? (v : JsValue) : Option JsNumber :=
  match v.json with
  | .num x => some x
  | _ => none

/-- A value that is a non-negative integer. -/
def nat? (v : JsValue) : Option Nat := v.num?.bind JsNumber.toNat?

/-- `Array.isArray`, with the items. -/
def items? (v : JsValue) : Option (List JsValue) :=
  match h : v.json with
  | .arr items => some (items.attach.map fun w => ⟨w.1, (h ▸ v.wf).item w.1 w.2⟩)
  | _ => none

def isObject (v : JsValue) : Bool :=
  match v.json with
  | .obj _ => true
  | _ => false

/-- `if (v)` -/
def truthy (v : JsValue) : Bool :=
  match v.json with
  | .null => false
  | .bool b => b
  | .num x => x.digits ≠ []
  | .str s => s ≠ []
  | .arr _ | .obj _ => true

/-- The string field of an object, if it is one. -/
def strField? (v : JsValue) (key : JsString) : Option JsString := (v.get? key).bind str?

/-- An optional field of an object literal. -/
def optField {α : Type} (key : JsString) (o : Option α) (f : α → JsValue) :
    List (JsString × JsValue) :=
  match o with
  | some a => [(key, f a)]
  | none => []

/-! ### Reading what was set -/

@[simp] theorem str?_str (s : JsString) : (str s).str? = some s := rfl
@[simp] theorem bool?_bool (b : Bool) : (bool b).bool? = some b := rfl
@[simp] theorem num?_num (x : JsNumber) : (num x).num? = some x := rfl
@[simp] theorem nat?_nat (n : Nat) : (nat n).nat? = some n := by simp [nat, nat?]
@[simp] theorem str?_null : null.str? = none := rfl
@[simp] theorem isObject_empty : empty.isObject = true := rfl

@[simp] theorem map_str_bind_str? (o : Option JsString) : (o.map str).bind str? = o := by
  cases o <;> rfl

@[simp] theorem map_bool_bind_bool? (o : Option Bool) : (o.map bool).bind bool? = o := by
  cases o <;> rfl

@[simp] theorem filterMap_str?_str (ss : List JsString) :
    ss.filterMap (str? ∘ str) = ss := by
  have hsome : str? ∘ str = some := rfl
  rw [hsome, List.filterMap_some]

@[simp] theorem items?_arr (items : List JsValue) : (arr items).items? = some items := by
  show some _ = some _
  congr 1
  refine List.ext_getElem ?_ fun i h₁ h₂ => ?_
  · simp
  · ext
    simp

theorem get?_json (v : JsValue) (key : JsString) :
    (v.get? key).map json = fieldValue? v.json.fields key := by
  unfold get?
  split
  · rename_i f hf
    simp [fieldValue?, hf]
  · rename_i hf
    simp [fieldValue?, hf]

/-- Values that read the same tree are the same. -/
theorem map_json_inj {o p : Option JsValue} (h : o.map json = p.map json) : o = p := by
  cases o <;> cases p <;> simp at h ⊢
  exact ext h

theorem set_json {v : JsValue} {fields : List (JsString × Json)} (h : v.json = .obj fields)
    (key : JsString) (w : JsValue) : (v.set key w).json = .obj (setField fields key w.json) := by
  obtain ⟨json, wf⟩ := v
  subst h
  rfl

theorem delete_json {v : JsValue} {fields : List (JsString × Json)} (h : v.json = .obj fields)
    (key : JsString) : (v.delete key).json = .obj (removeField fields key) := by
  obtain ⟨json, wf⟩ := v
  subst h
  rfl

theorem isObject_iff {v : JsValue} : v.isObject = true ↔ ∃ fields, v.json = .obj fields := by
  obtain ⟨json, wf⟩ := v
  constructor
  · intro h
    cases json with
    | obj fields => exact ⟨fields, rfl⟩
    | _ => cases h
  · rintro ⟨fields, h⟩
    subst h
    rfl

/-- A value that is no object keeps no field. -/
theorem set_of_not_isObject {v : JsValue} (h : v.isObject = false) (key : JsString)
    (w : JsValue) : v.set key w = v := by
  obtain ⟨json, wf⟩ := v
  cases json with
  | obj fields => cases h
  | _ => rfl

@[simp] theorem isObject_set (v : JsValue) (key : JsString) (w : JsValue) :
    (v.set key w).isObject = v.isObject := by
  cases h : v.isObject with
  | true =>
    obtain ⟨fields, hf⟩ := isObject_iff.mp h
    exact isObject_iff.mpr ⟨_, set_json hf key w⟩
  | false => rw [set_of_not_isObject h, h]

/-- Setting a field makes nothing falsy. -/
theorem truthy_set (v : JsValue) (key : JsString) (w : JsValue) :
    (v.set key w).truthy = v.truthy := by
  cases h : v.isObject with
  | true =>
    obtain ⟨fields, hf⟩ := isObject_iff.mp h
    rw [truthy, truthy, set_json hf, hf]
  | false => rw [set_of_not_isObject h]

theorem delete_of_not_isObject {v : JsValue} (h : v.isObject = false) (key : JsString) :
    v.delete key = v := by
  obtain ⟨json, wf⟩ := v
  cases json with
  | obj fields => cases h
  | _ => rfl

theorem truthy_delete (v : JsValue) (key : JsString) : (v.delete key).truthy = v.truthy := by
  cases h : v.isObject with
  | true =>
    obtain ⟨fields, hf⟩ := isObject_iff.mp h
    rw [truthy, truthy, delete_json hf, hf]
  | false => rw [delete_of_not_isObject h]

theorem get?_set {v : JsValue} (hv : v.isObject = true) (key k : JsString) (w : JsValue) :
    (v.set key w).get? k = if key = k then some w else v.get? k := by
  obtain ⟨fields, hf⟩ := isObject_iff.mp hv
  refine map_json_inj ?_
  rw [get?_json, set_json hf, Json.fields, fieldValue?_setField]
  split
  · rfl
  · rw [get?_json, hf, Json.fields]

/-- Only an object has fields. -/
theorem isObject_of_get? {v w : JsValue} {key : JsString} (h : v.get? key = some w) :
    v.isObject = true := by
  have hjson := get?_json v key
  rw [h, Option.map_some] at hjson
  cases hv : v.json with
  | obj fields => exact isObject_iff.mpr ⟨fields, hv⟩
  | _ =>
    rw [hv] at hjson
    cases hjson

/-- Setting a field to its value changes nothing. -/
theorem set_get? {v w : JsValue} {key : JsString} (h : v.get? key = some w) :
    v.set key w = v := by
  obtain ⟨fields, hf⟩ := isObject_iff.mp (isObject_of_get? h)
  refine ext ?_
  rw [set_json hf, hf]
  have hjson := get?_json v key
  rw [h, hf] at hjson
  have hsame : setField fields key w.json = fields := setField_self hjson.symm
  rw [hsame]

theorem get?_delete {v : JsValue} (hv : v.isObject = true) (key k : JsString) :
    (v.delete key).get? k = if key = k then none else v.get? k := by
  obtain ⟨fields, hf⟩ := isObject_iff.mp hv
  refine map_json_inj ?_
  rw [get?_json, delete_json hf, Json.fields, fieldValue?_removeField]
  split
  · rfl
  · rw [get?_json, hf, Json.fields]

/-- The other fields stay. -/
theorem get?_set_of_ne {key k : JsString} (h : key ≠ k) (v w : JsValue) :
    (v.set key w).get? k = v.get? k := by
  cases hv : v.isObject with
  | true => rw [get?_set hv, if_neg h]
  | false => rw [set_of_not_isObject hv]

theorem get?_delete_of_ne {key k : JsString} (h : key ≠ k) (v : JsValue) :
    (v.delete key).get? k = v.get? k := by
  cases hv : v.isObject with
  | true => rw [get?_delete hv, if_neg h]
  | false => rw [delete_of_not_isObject hv]

theorem isObject_object (fields : List (JsString × JsValue)) :
    (object fields).isObject = true := by
  have hfold : ∀ (fs : List (JsString × JsValue)) (v : JsValue), v.isObject = true →
      (fs.foldl (fun v f => v.set f.1 f.2) v).isObject = true := by
    intro fs
    induction fs with
    | nil => exact fun v hv => hv
    | cons f fs ih => exact fun v hv => ih _ (by rw [isObject_set, hv])
  exact hfold fields empty rfl

/-- The last of the fields of a literal with a given name. -/
def lastField? (fields : List (JsString × JsValue)) (key : JsString) : Option JsValue :=
  match fields with
  | [] => none
  | f :: rest => (lastField? rest key).or (if f.1 = key then some f.2 else none)

@[simp] theorem lastField?_nil (key : JsString) : lastField? [] key = none := rfl

@[simp] theorem lastField?_cons (f : JsString × JsValue) (rest : List (JsString × JsValue))
    (key : JsString) : lastField? (f :: rest) key
      = (lastField? rest key).or (if f.1 = key then some f.2 else none) := rfl

@[simp] theorem lastField?_append (as bs : List (JsString × JsValue)) (key : JsString) :
    lastField? (as ++ bs) key = (lastField? bs key).or (lastField? as key) := by
  induction as with
  | nil => simp
  | cons a as ih => rw [List.cons_append, lastField?_cons, ih, lastField?_cons, Option.or_assoc]

@[simp] theorem lastField?_optField {α : Type} (k : JsString) (o : Option α) (f : α → JsValue)
    (key : JsString) : lastField? (optField k o f) key = if k = key then o.map f else none := by
  cases o <;> simp [optField]

/-- A field of an object literal is the last one given. -/
@[simp] theorem get?_object (fields : List (JsString × JsValue)) (key : JsString) :
    (object fields).get? key = lastField? fields key := by
  have hfold : ∀ (fs : List (JsString × JsValue)) (v : JsValue), v.isObject = true →
      (fs.foldl (fun v f => v.set f.1 f.2) v).get? key = (lastField? fs key).or (v.get? key) := by
    intro fs
    induction fs with
    | nil => exact fun v _ => rfl
    | cons f fs ih =>
      intro v hv
      rw [List.foldl_cons, ih _ (by rw [isObject_set, hv]), get?_set hv, lastField?_cons,
        Option.or_assoc]
      by_cases h : f.1 = key <;> simp [h]
  rw [object, hfold fields empty rfl]
  exact Option.or_none

/-- The first field given stays the first. -/
theorem object_cons (k : JsString) (v : JsValue) (fields : List (JsString × JsValue)) :
    ∃ w rest, (object ((k, v) :: fields)).json = .obj ((k, w) :: rest) := by
  have hfold : ∀ (fs : List (JsString × JsValue)) (o : JsValue) (w : Json)
      (rest : List (JsString × Json)), o.json = .obj ((k, w) :: rest) →
      ∃ w' rest', (fs.foldl (fun v f => v.set f.1 f.2) o).json = .obj ((k, w') :: rest') := by
    intro fs
    induction fs with
    | nil => exact fun o w rest h => ⟨w, rest, h⟩
    | cons f fs ih =>
      intro o w rest h
      have hset := set_json h f.1 f.2
      rw [setField] at hset
      split at hset
      · rename_i hk
        exact ih _ f.2.json rest (by rw [hset, hk])
      · exact ih _ w _ hset
  exact hfold fields _ v.json [] (by rw [set_json rfl]; rfl)

/-- The fields of an object, as a map. -/
def objectFields (v : JsValue) : JsMap JsString JsValue :=
  match h : v.json with
  | .obj fields => ⟨fields.attach.map fun f => (f.1.1, ⟨f.1.2, (h ▸ v.wf).field f.1 f.2⟩), by
      have hkeys : (fields.attach.map fun f => (f.1.1, (⟨f.1.2, (h ▸ v.wf).field f.1 f.2⟩ :
          JsValue))).map Prod.fst = fields.map Prod.fst := by
        rw [List.map_map]
        show fields.attach.map (Prod.fst ∘ Subtype.val) = _
        rw [← List.map_map, List.attach_map_subtype_val]
      rw [hkeys]
      exact (h ▸ v.wf).nodup⟩
  | _ => .empty

theorem map_json_objectFields {v : JsValue} {fields : List (JsString × Json)}
    (h : v.json = .obj fields) :
    v.objectFields.entries.map (fun f => (f.1, f.2.json)) = fields := by
  unfold objectFields
  split
  · rename_i fields' h'
    obtain rfl : fields' = fields := by
      rw [h] at h'
      exact (Json.obj.inj h').symm
    rw [List.map_map]
    show fields'.attach.map (fun f => f.1) = _
    exact List.attach_map_subtype_val _
  · rename_i hne
    exact absurd h (hne fields)

theorem map_setField_json (fields : List (JsString × JsValue)) (key : JsString) (w : JsValue) :
    (setField fields key w).map (fun f => (f.1, f.2.json))
      = setField (fields.map fun f => (f.1, f.2.json)) key w.json := by
  induction fields with
  | nil => rfl
  | cons f fields ih =>
    rw [setField, List.map_cons, setField]
    split
    · rfl
    · rw [List.map_cons, ih]

/-- Fields that read the same trees are the same. -/
theorem map_field_json_inj {as bs : List (JsString × JsValue)}
    (h : as.map (fun f => (f.1, f.2.json)) = bs.map (fun f => (f.1, f.2.json))) : as = bs := by
  refine List.map_injective_iff.mpr ?_ h
  rintro ⟨j, v⟩ ⟨k, w⟩ hjk
  simp only [Prod.mk.injEq] at hjk
  rw [hjk.1, ext hjk.2]

theorem objectFields_set {v : JsValue} (hv : v.isObject = true) (key : JsString) (w : JsValue) :
    (v.set key w).objectFields = v.objectFields.set key w := by
  obtain ⟨fields, hf⟩ := isObject_iff.mp hv
  refine JsMap.ext (map_field_json_inj ?_)
  rw [map_json_objectFields (set_json hf key w), JsMap.set, map_setField_json,
    map_json_objectFields hf]

/-- The fields of an object literal are what was set. -/
theorem objectFields_object (fields : List (JsString × JsValue)) :
    (object fields).objectFields = .ofFields fields := by
  have hfold : ∀ (fs : List (JsString × JsValue)) (v : JsValue) (m : JsMap JsString JsValue),
      v.isObject = true → v.objectFields = m →
      (fs.foldl (fun v f => v.set f.1 f.2) v).objectFields
        = fs.foldl (fun m f => m.set f.1 f.2) m := by
    intro fs
    induction fs with
    | nil => exact fun v m _ h => h
    | cons f fs ih =>
      intro v m hv h
      refine ih _ _ (by rw [isObject_set, hv]) ?_
      rw [objectFields_set hv, h]
  exact hfold fields empty .empty rfl rfl

/-- Reading a field from the map of the fields. -/
theorem get?_ofFields (fields : List (JsString × JsValue)) (key : JsString) :
    (JsMap.ofFields fields).get? key = lastField? fields key := by
  have hfold : ∀ (fs : List (JsString × JsValue)) (m : JsMap JsString JsValue),
      (fs.foldl (fun m f => m.set f.1 f.2) m).get? key = (lastField? fs key).or (m.get? key) := by
    intro fs
    induction fs with
    | nil => exact fun m => rfl
    | cons f fs ih =>
      intro m
      rw [List.foldl_cons, ih, JsMap.get?_set, lastField?_cons, Option.or_assoc]
      by_cases h : f.1 = key <;> simp [h]
  rw [JsMap.ofFields, hfold, JsMap.get?_empty, Option.or_none]

theorem lastField?_eq_none {fields : List (JsString × JsValue)} {key : JsString}
    (h : key ∉ fields.map Prod.fst) : lastField? fields key = none := by
  rw [← get?_ofFields, JsMap.get?_eq_none_iff, JsMap.mem_keys_ofFields]
  exact h

end JsValue

end PiMono
