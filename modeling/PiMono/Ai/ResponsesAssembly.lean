import PiMono.Ai.ResponsesItems

/-!
# Assembling Responses streams

The stream keeps one block an item of a consistent sequence, at the place where the item first
appears (`Assembled`). In the end the message is that of the done items, and every tool call's
deltas are a JSON text of its arguments if the deltas and the `arguments.done` of all function
calls bring their arguments whole (`faithful_iff_streamed`).
-/

namespace PiMono.Ai.ResponsesStream

section Blocks

variable {options : Options}

/-! ## The whole message -/

variable (options) in
/-- The state of the stream is that of the items. -/
structure Assembled (ts : List Tracked) (s : State) : Prop where
  length : s.content.length = ts.length
  nodup : (ts.map (·.index)).Nodup
  slots : ∀ index k, s.slots.get? index = some k ↔
    ∃ t, ts[k]? = some t ∧ t.index = index ∧ t.done = none
  blocks : ∀ k t block, ts[k]? = some t → s.content[k]? = some block →
    Matches options t block (streamedAt k s.pushed)
  range : ∀ event ∈ s.pushed, event.contentIndex < ts.length

theorem assembled_initial : Assembled options [] initial where
  length := rfl
  nodup := List.nodup_nil
  slots := fun index k => by simp [initial]
  blocks := fun k t block h => by cases h
  range := nofun

theorem place_eq_some {ts : List Tracked} {index k : Nat} {t : Tracked}
    (h : place ts index = some (k, t)) : ts[k]? = some t ∧ t.index = index := by
  obtain ⟨j, hj, hplace⟩ := Option.bind_eq_some_iff.mp h
  obtain ⟨u, hu, heq⟩ := Option.map_eq_some_iff.mp hplace
  obtain ⟨rfl, rfl⟩ := Prod.mk.inj heq
  refine ⟨hu, ?_⟩
  obtain ⟨hlt, hindex, -⟩ := List.findIdx?_eq_some_iff_getElem.mp hj
  rw [List.getElem?_eq_getElem hlt] at hu
  rw [← Option.some.inj hu]
  simpa using hindex

theorem place_eq_none {ts : List Tracked} {index : Nat} (h : place ts index = none) :
    index ∉ ts.map (·.index) := by
  rw [place, Option.bind_eq_none_iff] at h
  intro hmem
  obtain ⟨t, ht, hindex⟩ := List.mem_map.mp hmem
  cases hfound : ts.findIdx? (·.index = index) with
  | none =>
    have hno := List.findIdx?_eq_none_iff.mp hfound t ht
    simp [hindex] at hno
  | some k =>
    obtain ⟨hlt, -, -⟩ := List.findIdx?_eq_some_iff_getElem.mp hfound
    have hnone := h k hfound
    rw [List.getElem?_eq_getElem hlt] at hnone
    cases hnone

theorem eq_of_index {ts : List Tracked} (hnodup : (ts.map (·.index)).Nodup) {j k : Nat}
    {t u : Tracked} (hj : ts[j]? = some t) (hk : ts[k]? = some u) (hindex : t.index = u.index) :
    j = k := by
  have hkeys : (ts.map (·.index))[j]? = (ts.map (·.index))[k]? := by
    rw [List.getElem?_map, List.getElem?_map, hj, hk, Option.map_some, Option.map_some, hindex]
  have hlt : j < (ts.map (·.index)).length := by
    rw [List.length_map]
    exact (List.getElem?_eq_some_iff.mp hj).1
  exact (List.getElem?_inj hlt hnodup).mp hkeys

theorem map_index_set {ts : List Tracked} {k : Nat} {t t' : Tracked} (ht : ts[k]? = some t)
    (hindex : t'.index = t.index) : (ts.set k t').map (·.index) = ts.map (·.index) := by
  refine List.ext_getElem? fun j => ?_
  rw [List.getElem?_map, List.getElem?_map, List.getElem?_set]
  split
  · rename_i heq
    subst heq
    rw [ht, if_pos (List.getElem?_eq_some_iff.mp ht).1, Option.map_some, Option.map_some, hindex]
  · rfl

section Step

variable {ts ts' : List Tracked} {s : State}

/-- An item is changed, and its block with it. -/
theorem Assembled.set (h : Assembled options ts s) {k : Nat} {t t' : Tracked} {block' : Block}
    {events : List MessageEvent} {slots : JsMap Nat Nat} (ht : ts[k]? = some t)
    (hindex : t'.index = t.index)
    (hmatches : Matches options t' block' (streamedAt k s.pushed ++ streamedAt k events))
    (hevents : ∀ event ∈ events, event.contentIndex = k)
    (hslots : ∀ index j, slots.get? index = some j ↔
      ∃ u, (ts.set k t')[j]? = some u ∧ u.index = index ∧ u.done = none) :
    Assembled options (ts.set k t') { s with
      content := s.content.set k block', slots, pushed := s.pushed ++ events } where
  length := by
    show (s.content.set k block').length = _
    rw [List.length_set, List.length_set, h.length]
  nodup := by
    rw [map_index_set ht hindex]
    exact h.nodup
  slots := hslots
  blocks := by
    intro j u block hu hblock
    have hlt : k < ts.length := (List.getElem?_eq_some_iff.mp ht).1
    show Matches options u block (streamedAt j (s.pushed ++ events))
    rw [streamedAt_append]
    by_cases hj : j = k
    · subst hj
      rw [List.getElem?_set_self hlt] at hu
      rw [List.getElem?_set_self (by rw [h.length]; exact hlt)] at hblock
      rw [← Option.some.inj hu, ← Option.some.inj hblock]
      exact hmatches
    · rw [List.getElem?_set_ne (Ne.symm hj)] at hu hblock
      have hnone : streamedAt j events = [] :=
        streamedAt_of_ne fun event hevent heq => hj (heq.symm.trans (hevents event hevent))
      rw [hnone, List.append_nil]
      exact h.blocks j u block hu hblock
  range := by
    intro event hevent
    rw [List.length_set]
    rcases List.mem_append.mp hevent with hold | hnew
    · exact h.range event hold
    · rw [hevents event hnew]
      exact (List.getElem?_eq_some_iff.mp ht).1

/-- The items of one sequence of events keep their places in the other. -/
def Keeps (ts ts' : List Tracked) : Prop :=
  ∀ (k : Nat) (t : Tracked), ts[k]? = some t →
    ∃ t' : Tracked, ts'[k]? = some t' ∧ t'.index = t.index

theorem keeps_set {k : Nat} {t t' : Tracked} (ht : ts[k]? = some t) (hindex : t'.index = t.index) :
    Keeps ts (ts.set k t') := by
  intro j u hu
  by_cases hj : k = j
  · subst hj
    rw [ht] at hu
    refine ⟨t', ?_, hindex.trans (congrArg Tracked.index (Option.some.inj hu))⟩
    exact List.getElem?_set_self (List.getElem?_eq_some_iff.mp ht).1
  · exact ⟨u, by rw [List.getElem?_set_ne hj, hu], rfl⟩

theorem trackItem_eq_some {index : Nat} {f : Tracked → Option Tracked}
    (h : trackItem ts index f = some ts') :
    ∃ k t t', ts[k]? = some t ∧ t.index = index ∧ f t = some t' ∧ ts' = ts.set k t' := by
  unfold trackItem at h
  split at h
  · cases h
  · rename_i k t hplace
    obtain ⟨t', ht', rfl⟩ := Option.map_eq_some_iff.mp h
    obtain ⟨hk, hindex⟩ := place_eq_some hplace
    exact ⟨k, t, t', hk, hindex, ht', rfl⟩

/-- What an event pushes names the item it belongs to. -/
def Names (ts : List Tracked) (index : Nat) (new : List MessageEvent) : Prop :=
  ∀ event ∈ new, ∃ t : Tracked, ts[event.contentIndex]? = some t ∧ t.index = index

theorem Assembled.change (h : Assembled options ts s) {index : Nat}
    {f : Tracked → Option Tracked}
    {g : Nat → Block → Except JsString (Block × List MessageEvent)} (hfollows : Follows options f g)
    (htrack : trackItem ts index f = some ts') :
    ∃ s' new, ResponsesStream.change s index g = .ok s' ∧ Assembled options ts' s'
      ∧ s'.pushed = s.pushed ++ new ∧ Names ts' index new ∧ Keeps ts ts' := by
  obtain ⟨k, t, t', hk, hindex, hf, rfl⟩ := trackItem_eq_some htrack
  have hlt : k < s.content.length := by
    rw [h.length]
    exact (List.getElem?_eq_some_iff.mp hk).1
  have hblock := List.getElem?_eq_getElem hlt
  obtain ⟨block', events, hg, hmatches, hevents, hsame, hdone, hdone'⟩ :=
    hfollows k t t' _ _ hf (h.blocks k t _ hk hblock)
  have hslot : s.slots.get? index = some k := (h.slots index k).mpr ⟨t, hk, hindex, hdone⟩
  have hslots : ∀ i j, s.slots.get? i = some j ↔
      ∃ u : Tracked, (ts.set k t')[j]? = some u ∧ u.index = i ∧ u.done = none := by
    intro i j
    rw [h.slots]
    by_cases hj : k = j
    · subst hj
      rw [hk, List.getElem?_set_self (List.getElem?_eq_some_iff.mp hk).1]
      constructor
      · rintro ⟨u, hu, hi, -⟩
        exact ⟨t', rfl, by rw [hsame, Option.some.inj hu, hi], hdone'⟩
      · rintro ⟨u, hu, hi, -⟩
        exact ⟨t, rfl, by rw [← hsame, Option.some.inj hu, hi], hdone⟩
    · rw [List.getElem?_set_ne hj]
  refine ⟨_, events, ?_, h.set hk hsame hmatches hevents hslots, rfl, fun event hevent => ?_,
    keeps_set hk hsame⟩
  · rw [ResponsesStream.change, hslot]
    dsimp only
    rw [hblock]
    dsimp only
    rw [hg]
    rfl
  · rw [hevents event hevent, List.getElem?_set_self (List.getElem?_eq_some_iff.mp hk).1]
    exact ⟨t', rfl, hsame.trans hindex⟩

theorem Assembled.finishItem (h : Assembled options ts s) {index : Nat} {item : OutputItem}
    (htrack : trackItem ts index (Tracked.finish item) = some ts') :
    ∃ s' new, ResponsesStream.finishItem options s index item = .ok s' ∧ Assembled options ts' s'
      ∧ s'.pushed = s.pushed ++ new ∧ Names ts' index new ∧ Keeps ts ts'
      ∧ s.slots.has index = true := by
  obtain ⟨k, t, t', hk, hindex, hf, rfl⟩ := trackItem_eq_some htrack
  have hlt : k < s.content.length := by
    rw [h.length]
    exact (List.getElem?_eq_some_iff.mp hk).1
  have hblock := List.getElem?_eq_getElem hlt
  obtain ⟨hdone, -, -, hfinished⟩ := finish_spec hf
  have hsame : t'.index = t.index := by rw [hfinished]
  obtain ⟨block', events, hfinish, hmatches, hevents⟩ :=
    follows_finish hf (h.blocks k t _ hk hblock) k
  have hslot : s.slots.get? index = some k := (h.slots index k).mpr ⟨t, hk, hindex, hdone⟩
  have hslots : ∀ i j, (s.slots.delete index).get? i = some j ↔
      ∃ u : Tracked, (ts.set k t')[j]? = some u ∧ u.index = i ∧ u.done = none := by
    intro i j
    rw [JsMap.get?_delete]
    by_cases hj : k = j
    · subst hj
      rw [List.getElem?_set_self (List.getElem?_eq_some_iff.mp hk).1]
      constructor
      · split
        · exact fun h => by cases h
        · rename_i hi
          intro hopen
          obtain ⟨u, hu, hui, -⟩ := (h.slots i k).mp hopen
          rw [hk] at hu
          exact absurd (hindex.symm.trans (Option.some.inj hu ▸ hui)) hi
      · rintro ⟨u, hu, -, hopen⟩
        rw [← Option.some.inj hu, hfinished] at hopen
        cases hopen
    · rw [List.getElem?_set_ne hj]
      split
      · rename_i hi
        refine ⟨(fun h => by cases h), ?_⟩
        rintro ⟨u, hu, hui, -⟩
        exact absurd (eq_of_index h.nodup hk hu (hindex.trans (hi.trans hui.symm))) hj
      · exact h.slots i j
  refine ⟨_, events, ?_, h.set hk hsame hmatches hevents hslots, rfl, fun event hevent => ?_,
    keeps_set hk hsame, ?_⟩
  · rw [ResponsesStream.finishItem, hslot]
    dsimp only
    rw [hblock]
    dsimp only
    rw [hfinish]
    rfl
  · rw [hevents event hevent, List.getElem?_set_self (List.getElem?_eq_some_iff.mp hk).1]
    exact ⟨t', rfl, hsame.trans hindex⟩
  · rw [JsMap.has, hslot]
    rfl

/-- The block of an item that is added. -/
theorem matches_added (index position : Nat) {item : OutputItem} {block : Block}
    {start : Nat → MessageEvent} (hnew : newBlock options item = some (block, start)) :
    Matches options (.added index item) block [] ∧ (start position).contentIndex = position
      ∧ deltaAt position (start position) = none := by
  cases item with
  | reasoning summary content =>
    obtain ⟨rfl, rfl⟩ := Prod.mk.inj (Option.some.inj hnew)
    exact ⟨rfl, rfl, rfl⟩
  | message content =>
    obtain ⟨rfl, rfl⟩ := Prod.mk.inj (Option.some.inj hnew)
    exact ⟨rfl, rfl, rfl⟩
  | function_call call_id id name nameSpace arguments =>
    obtain ⟨rfl, rfl⟩ := Prod.mk.inj (Option.some.inj hnew)
    exact ⟨⟨_, rfl, List.append_nil _⟩, rfl, rfl⟩
  | custom_tool_call call_id id name nameSpace input =>
    obtain ⟨rfl, rfl⟩ := Prod.mk.inj (Option.some.inj hnew)
    exact ⟨⟨_, rfl, ⟨rfl, rfl⟩, List.nil_prefix, rfl, nofun⟩, rfl, rfl⟩
  | other => cases hnew

theorem newBlock_of_ne {item : OutputItem} (h : item ≠ .other) :
    ∃ block start, newBlock options item = some (block, start) := by
  cases item with
  | other => exact absurd rfl h
  | _ => exact ⟨_, _, rfl⟩

theorem getElem?_concat_iff {α : Type} {l : List α} {a b : α} {k : Nat} :
    (l ++ [a])[k]? = some b ↔ l[k]? = some b ∨ (k = l.length ∧ b = a) := by
  rcases Nat.lt_trichotomy k l.length with hlt | rfl | hgt
  · rw [List.getElem?_append_left hlt]
    exact ⟨Or.inl, fun h => h.resolve_right fun hk => Nat.lt_irrefl _ (hk.1 ▸ hlt)⟩
  · rw [List.getElem?_concat_length, List.getElem?_eq_none (Nat.le_refl _)]
    constructor
    · exact fun h => .inr ⟨rfl, (Option.some.inj h).symm⟩
    · rintro (h | ⟨-, rfl⟩)
      · cases h
      · rfl
  · rw [List.getElem?_eq_none (by rw [List.length_append]; exact hgt),
      List.getElem?_eq_none (Nat.le_of_lt hgt)]
    refine ⟨nofun, fun h => ?_⟩
    obtain h | ⟨rfl, -⟩ := h
    · exact h
    · exact absurd hgt (Nat.lt_irrefl _)

theorem Assembled.append (h : Assembled options ts s) {index : Nat}
    (hfresh : index ∉ ts.map (·.index)) {item : OutputItem} {block : Block}
    {start : Nat → MessageEvent} (hnew : newBlock options item = some (block, start)) :
    Assembled options (ts ++ [.added index item]) { s with
      content := s.content ++ [block]
      slots := s.slots.set index s.content.length
      pushed := s.pushed ++ [start s.content.length] } := by
  obtain ⟨hmatches, hstart, hsilent⟩ := matches_added index s.content.length hnew
  have hpushed : ∀ k, streamedAt k [start s.content.length] = [] := by
    intro k
    by_cases hk : s.content.length = k
    · rw [← hk, streamedAt, List.filterMap_cons, hsilent]
      rfl
    · refine streamedAt_of_ne fun event hevent heq => hk ?_
      rw [List.mem_singleton.mp hevent, hstart] at heq
      exact heq
  have hnothing : streamedAt s.content.length s.pushed = [] :=
    streamedAt_of_ne fun event hevent heq =>
      absurd (h.range event hevent) (by rw [heq, h.length]; exact Nat.lt_irrefl _)
  refine ⟨?_, ?_, fun i k => ?_, fun k t block' ht hblock => ?_, fun event hevent => ?_⟩
  · show (s.content ++ [block]).length = _
    rw [List.length_append, List.length_append, h.length]
    rfl
  · rw [List.map_append]
    refine List.nodup_append.mpr ⟨h.nodup, List.nodup_singleton _, fun a ha b hb heq => hfresh ?_⟩
    obtain rfl : b = index := List.mem_singleton.mp hb
    exact heq ▸ ha
  · show (s.slots.set index s.content.length).get? i = some k ↔ _
    rw [JsMap.get?_set]
    split
    · rename_i hi
      subst hi
      constructor
      · intro hk
        obtain rfl := Option.some.inj hk
        exact ⟨_, getElem?_concat_iff.mpr (.inr ⟨h.length, rfl⟩), rfl, rfl⟩
      · rintro ⟨t, ht, hindex, -⟩
        rcases getElem?_concat_iff.mp ht with hold | ⟨rfl, -⟩
        · exact absurd (List.mem_map.mpr ⟨t, List.mem_of_getElem? hold, hindex⟩) hfresh
        · rw [h.length]
    · rename_i hi
      rw [h.slots]
      constructor
      · rintro ⟨t, ht, hrest⟩
        exact ⟨t, getElem?_concat_iff.mpr (.inl ht), hrest⟩
      · rintro ⟨t, ht, hindex, hdone⟩
        rcases getElem?_concat_iff.mp ht with hold | ⟨-, rfl⟩
        · exact ⟨t, hold, hindex, hdone⟩
        · exact absurd hindex hi
  · show Matches options t block' (streamedAt k (s.pushed ++ [start s.content.length]))
    rw [streamedAt_append, hpushed, List.append_nil]
    rcases getElem?_concat_iff.mp ht with hold | ⟨rfl, rfl⟩
    · refine h.blocks k t block' hold ?_
      have hlt := (List.getElem?_eq_some_iff.mp hold).1
      rw [List.getElem?_append_left (by rw [h.length]; exact hlt)] at hblock
      exact hblock
    · rw [← h.length, List.getElem?_concat_length] at hblock
      rw [← Option.some.inj hblock, ← h.length, hnothing]
      exact hmatches
  · rw [List.length_append]
    rcases List.mem_append.mp hevent with hold | hnew
    · exact Nat.lt_succ_of_lt (h.range event hold)
    · rw [List.mem_singleton.mp hnew, hstart, h.length]
      exact Nat.lt_succ_self _

theorem Assembled.createSlot (h : Assembled options ts s) {index : Nat} {item : OutputItem}
    (htrack : trackAdded ts index item = some ts') :
    Assembled options ts' (ResponsesStream.createSlot options s index item)
      ∧ (∃ new, (ResponsesStream.createSlot options s index item).pushed = s.pushed ++ new
        ∧ Names ts' index new) ∧ Keeps ts ts' := by
  unfold trackAdded at htrack
  split at htrack
  · rename_i hother
    obtain rfl := Option.some.inj htrack
    rw [hother]
    exact ⟨h, ⟨[], (List.append_nil _).symm, nofun⟩, fun k t ht => ⟨t, ht, rfl⟩⟩
  · rename_i hother
    split at htrack
    · rename_i hplace
      obtain rfl := Option.some.inj htrack
      obtain ⟨block, start, hnew⟩ := @newBlock_of_ne options _ hother
      have hstart := (@matches_added options index s.content.length _ _ _ hnew).2.1
      rw [ResponsesStream.createSlot, hnew]
      refine ⟨h.append (place_eq_none hplace) hnew, ⟨_, rfl, fun event hevent => ?_⟩,
        fun k t ht => ⟨t, ?_, rfl⟩⟩
      · rw [List.mem_singleton.mp hevent, hstart, h.length, List.getElem?_concat_length]
        exact ⟨_, rfl, rfl⟩
      · rw [List.getElem?_append_left (List.getElem?_eq_some_iff.mp ht).1, ht]
    · cases htrack

/-- The state behind an event, and what has been pushed for it. -/
def Goes (options : Options) (ts ts' : List Tracked) (s : State) (index : Option Nat)
    (result : Except JsString State) : Prop :=
  ∃ s' new, result = .ok s' ∧ Assembled options ts' s' ∧ s'.pushed = s.pushed ++ new
    ∧ (∀ event ∈ new, ∃ t : Tracked, ts'[event.contentIndex]? = some t ∧ index = some t.index)
    ∧ Keeps ts ts'

theorem goes_of_change (h : Assembled options ts s) {index : Nat}
    {f : Tracked → Option Tracked}
    {g : Nat → Block → Except JsString (Block × List MessageEvent)} (hfollows : Follows options f g)
    (htrack : trackItem ts index f = some ts') :
    Goes options ts ts' s (some index) (change s index g) := by
  obtain ⟨s', new, hs', hassembled, hpushed, hnames, hkeeps⟩ := h.change hfollows htrack
  refine ⟨s', new, hs', hassembled, hpushed, fun event hevent => ?_, hkeeps⟩
  obtain ⟨t, ht, hindex⟩ := hnames event hevent
  exact ⟨t, ht, congrArg some hindex.symm⟩

theorem goes_of_nothing (h : Assembled options ts s) (index : Option Nat) :
    Goes options ts ts s index (.ok s) :=
  ⟨s, [], rfl, h, (List.append_nil _).symm, nofun, fun _ t ht => ⟨t, ht, rfl⟩⟩

/-- An item is done that has been added. -/
theorem goes_of_finishItem (h : Assembled options ts s) {index : Nat} {item : OutputItem}
    (htrack : trackItem ts index (Tracked.finish item) = some ts') :
    Goes options ts ts' s (some index) (handleEvent options s (.output_item_done index item)) := by
  obtain ⟨s', new, hs', hassembled, hpushed, hnames, hkeeps, hslot⟩ := h.finishItem htrack
  refine ⟨s', new, ?_, hassembled, hpushed, fun event hevent => ?_, hkeeps⟩
  · rw [handleEvent, hslot]
    exact hs'
  · obtain ⟨t, ht, hindex⟩ := hnames event hevent
    exact ⟨t, ht, congrArg some hindex.symm⟩

theorem not_has_of_place (h : Assembled options ts s) {index : Nat}
    (hplace : place ts index = none) : s.slots.has index = false := by
  cases hslot : s.slots.get? index with
  | none => rw [JsMap.has, hslot]; rfl
  | some k =>
    obtain ⟨t, ht, hindex, -⟩ := (h.slots index k).mp hslot
    exact absurd (List.mem_map.mpr ⟨t, List.mem_of_getElem? ht, hindex⟩) (place_eq_none hplace)

/-- An item is done that has not been added. -/
theorem goes_of_appears (h : Assembled options ts s) {index : Nat} {item : OutputItem}
    (hplace : place ts index = none)
    (htrack : ((trackAdded ts index item).bind fun ts =>
      trackItem ts index (Tracked.finish item)) = some ts') :
    Goes options ts ts' s (some index) (handleEvent options s (.output_item_done index item)) := by
  obtain ⟨ts₁, hadded, hfinished⟩ := Option.bind_eq_some_iff.mp htrack
  obtain ⟨hassembled, ⟨new, hnew, hnames⟩, hkeeps⟩ := h.createSlot hadded
  obtain ⟨s', new', hs', hassembled', hpushed', hnames', hkeeps', -⟩ :=
    hassembled.finishItem hfinished
  refine ⟨s', new ++ new', ?_, hassembled', ?_, fun event hevent => ?_, fun k t ht => ?_⟩
  · rw [handleEvent, not_has_of_place h hplace]
    exact hs'
  · rw [hpushed', hnew, List.append_assoc]
  · rcases List.mem_append.mp hevent with hcreated | hended
    · obtain ⟨t, ht, hindex⟩ := hnames event hcreated
      obtain ⟨t', ht', hsame⟩ := hkeeps' _ t ht
      exact ⟨t', ht', congrArg some (hsame.trans hindex).symm⟩
    · obtain ⟨t, ht, hindex⟩ := hnames' event hended
      exact ⟨t, ht, congrArg some hindex.symm⟩
  · obtain ⟨t₁, ht₁, hsame₁⟩ := hkeeps k t ht
    obtain ⟨t₂, ht₂, hsame₂⟩ := hkeeps' k t₁ ht₁
    exact ⟨t₂, ht₂, hsame₂.trans hsame₁⟩

/-- One event of a consistent sequence. -/
theorem goes_of_track (h : Assembled options ts s) {event : ResponseEvent}
    (htrack : track ts event = some ts') :
    Goes options ts ts' s event.outputIndex? (handleEvent options s event) := by
  cases event with
  | output_item_added index item =>
    obtain ⟨hassembled, ⟨new, hnew, hnames⟩, hkeeps⟩ := h.createSlot htrack
    refine ⟨_, new, rfl, hassembled, hnew, fun event hevent => ?_, hkeeps⟩
    obtain ⟨t, ht, hindex⟩ := hnames event hevent
    exact ⟨t, ht, congrArg some hindex.symm⟩
  | reasoning_summary_text_delta index delta | reasoning_text_delta index delta =>
    exact goes_of_change h (follows_thinkingDelta delta) htrack
  | reasoning_summary_part_done index =>
    exact goes_of_change h (follows_thinkingDelta _) htrack
  | output_text_delta index delta | refusal_delta index delta =>
    exact goes_of_change h (follows_textDelta delta) htrack
  | function_call_arguments_delta index delta =>
    exact goes_of_change h (follows_argumentsDelta delta) htrack
  | function_call_arguments_done index arguments =>
    exact goes_of_change h (follows_argumentsDone arguments) htrack
  | custom_tool_call_input_delta index delta =>
    exact goes_of_change h (follows_inputDelta delta) htrack
  | custom_tool_call_input_done index input =>
    exact goes_of_change h (follows_inputDone input) htrack
  | output_item_done index item =>
    simp only [track] at htrack
    split at htrack
    · rename_i hplace
      obtain rfl := Option.some.inj htrack
      have hnone : s.slots.get? index = none := by
        have hhas := not_has_of_place h hplace
        rw [JsMap.has] at hhas
        exact Option.isSome_eq_false_iff.mp hhas |> Option.isNone_iff_eq_none.mp
      refine (?_ : handleEvent options s _ = .ok s) ▸ goes_of_nothing h _
      rw [handleEvent, not_has_of_place h hplace]
      show finishItem options s index .other = _
      rw [finishItem, hnone]
    · cases htrack
    · exact goes_of_finishItem h htrack
    · rename_i hplace
      exact goes_of_appears h hplace htrack
  | other =>
    obtain rfl := Option.some.inj htrack
    exact goes_of_nothing h _
  | completed | incomplete | failed => cases htrack

end Step

/-! ## Faithful streams -/

theorem run_track {ts' : List Tracked} : ∀ (events : List ResponseEvent) {ts : List Tracked}
    {s : State}, Assembled options ts s → events.foldlM track ts = some ts' →
    ∃ s', events.foldlM (handleEvent options) s = .ok s' ∧ Assembled options ts' s'
      ∧ Keeps ts ts'
  | [], ts, s, h, htrack => by
    obtain rfl := Option.some.inj htrack
    exact ⟨s, rfl, h, fun _ t ht => ⟨t, ht, rfl⟩⟩
  | event :: events, ts, s, h, htrack => by
    rw [List.foldlM_cons] at htrack
    obtain ⟨ts₁, hevent, hrest⟩ := Option.bind_eq_some_iff.mp htrack
    obtain ⟨s₁, new, hs₁, hassembled, -, -, hkeeps⟩ := goes_of_track h hevent
    obtain ⟨s', hs', hassembled', hkeeps'⟩ := run_track events hassembled hrest
    refine ⟨s', ?_, hassembled', fun k t ht => ?_⟩
    · rw [List.foldlM_cons, hs₁]
      exact hs'
    · obtain ⟨t₁, ht₁, hsame₁⟩ := hkeeps k t ht
      obtain ⟨t₂, ht₂, hsame₂⟩ := hkeeps' k t₁ ht₁
      exact ⟨t₂, ht₂, hsame₂.trans hsame₁⟩

variable (options) in
/-- The message has one finished block an item, the deltas of each tool call are a JSON text of its
arguments, and what is pushed for an event names the block of its item. -/
structure Faithful (events : List ResponseEvent) (ts : List Tracked) : Prop where
  message : ∃ s, processResponsesStream options events = .ok s
    ∧ s.content = ts.map (·.finalBlock options)
    ∧ ∀ k toolCall, s.content[k]? = some (.toolCall toolCall) →
      JsValue.parse (streamedAt k s.pushed) = some toolCall.arguments
  names : ∀ before event behind s s', events = before ++ event :: behind →
    before.foldlM (handleEvent options) initial = .ok s → handleEvent options s event = .ok s' →
      ∃ new, s'.pushed = s.pushed ++ new ∧ ∀ pushed ∈ new, ∃ t : Tracked,
        ts[pushed.contentIndex]? = some t ∧ event.outputIndex? = some t.index

/-- What the deltas and the `arguments.done` of an item add to its first form. -/
def Tracked.streamedText (t : Tracked) : JsString := t.partialText.drop t.item.given.length

variable (options) in
/-- Of every function call, the arguments that come behind its first form are a JSON text of the
final ones. -/
def AllStreamed (ts : List Tracked) : Prop :=
  ∀ t ∈ ts, t.item.isFunctionCall = true →
    JsValue.parse t.streamedText = some (t.finalArguments options)

theorem names_of_consistent {events : List ResponseEvent} {ts : List Tracked}
    (h : Consistent events ts) (before : List ResponseEvent) (event : ResponseEvent)
    (behind : List ResponseEvent) (s s' : State) (hsplit : events = before ++ event :: behind)
    (hs : before.foldlM (handleEvent options) initial = .ok s)
    (hs' : handleEvent options s event = .ok s') :
    ∃ new, s'.pushed = s.pushed ++ new ∧ ∀ pushed ∈ new, ∃ t : Tracked,
      ts[pushed.contentIndex]? = some t ∧ event.outputIndex? = some t.index := by
  obtain ⟨tracked, rfl, htrack⟩ := h.ends
  rcases List.eq_nil_or_concat behind with rfl | ⟨behind, last, rfl⟩
  · obtain ⟨-, hlast⟩ := List.append_inj' hsplit rfl
    rw [← List.head_eq_of_cons_eq hlast] at hs'
    refine ⟨[], ?_, nofun⟩
    rw [← Except.ok.inj hs', List.append_nil]
  · rw [List.concat_eq_append, ← List.cons_append, ← List.append_assoc] at hsplit
    obtain ⟨rfl, -⟩ := List.append_inj' hsplit rfl
    rw [List.foldlM_append] at htrack
    obtain ⟨ts₁, hbefore, hrest⟩ := Option.bind_eq_some_iff.mp htrack
    rw [List.foldlM_cons] at hrest
    obtain ⟨ts₂, hevent, hbehind⟩ := Option.bind_eq_some_iff.mp hrest
    obtain ⟨s₁, hs₁, hassembled, -⟩ := run_track before (@assembled_initial options) hbefore
    obtain rfl := Except.ok.inj (hs₁.symm.trans hs)
    obtain ⟨s₂, new, hs₂, hassembled₂, hpushed, hnames, -⟩ := goes_of_track hassembled hevent
    obtain rfl := Except.ok.inj (hs₂.symm.trans hs')
    obtain ⟨-, -, -, hkeeps⟩ := run_track behind hassembled₂ hbehind
    refine ⟨new, hpushed, fun pushed hmem => ?_⟩
    obtain ⟨t, ht, hindex⟩ := hnames pushed hmem
    obtain ⟨t', ht', hsame⟩ := hkeeps _ t ht
    exact ⟨t', ht', hindex.trans (congrArg some hsame.symm)⟩

/-- The state behind a consistent sequence. -/
theorem process_of_consistent {events : List ResponseEvent} {ts : List Tracked}
    (h : Consistent events ts) : ∃ s, processResponsesStream options events = .ok s
      ∧ Assembled options ts s := by
  obtain ⟨before, rfl, htrack⟩ := h.ends
  obtain ⟨s, hs, hassembled, -⟩ := run_track before (@assembled_initial options) htrack
  refine ⟨{ s with sawTerminalResponseEvent := true }, ?_, ?_⟩
  · rw [processResponsesStream, List.foldlM_append, hs]
    rfl
  · exact ⟨hassembled.length, hassembled.nodup, hassembled.slots, hassembled.blocks,
      hassembled.range⟩

/-- The block of a done item is final. -/
theorem final_of_assembled {ts : List Tracked} {s : State} (h : Assembled options ts s)
    (hdone : ∀ t ∈ ts, t.done ≠ none) {k : Nat} {t : Tracked} (ht : ts[k]? = some t) :
    s.content[k]? = some (t.finalBlock options)
      ∧ t.Streamed options (streamedAt k s.pushed) := by
  have hlt : k < s.content.length := by
    rw [h.length]
    exact (List.getElem?_eq_some_iff.mp ht).1
  have hblock := List.getElem?_eq_getElem hlt
  have hmatches := h.blocks k t _ ht hblock
  obtain ⟨item, hitem⟩ := Option.ne_none_iff_exists'.mp (hdone t (List.mem_of_getElem? ht))
  rw [Matches, hitem] at hmatches
  exact ⟨hblock.trans (congrArg some hmatches.1), hmatches.2⟩

theorem content_of_assembled {ts : List Tracked} {s : State} (h : Assembled options ts s)
    (hdone : ∀ t ∈ ts, t.done ≠ none) : s.content = ts.map (·.finalBlock options) := by
  refine List.ext_getElem? fun k => ?_
  rw [List.getElem?_map]
  cases ht : ts[k]? with
  | none =>
    rw [List.getElem?_eq_none_iff] at ht
    rw [List.getElem?_eq_none (by rw [h.length]; exact ht)]
    rfl
  | some t => exact (final_of_assembled h hdone ht).1

/-- What has been streamed of a function call. -/
theorem streamedText_of_streamed {t : Tracked} {streamed : JsString}
    (htype : t.item.isFunctionCall = true) (h : t.Streamed options streamed) :
    t.streamedText = streamed := by
  obtain ⟨index, item, text, whole, done⟩ := t
  cases item with
  | function_call call_id id name nameSpace given =>
    rw [Tracked.streamedText, ← show given.getD [] ++ streamed = _ from h]
    exact List.drop_left
  | _ => cases htype

theorem streamed_of_faithful {events : List ResponseEvent} {ts : List Tracked}
    (h : Consistent events ts) (hfaithful : Faithful options events ts) :
    AllStreamed options ts := by
  obtain ⟨s, hs, hassembled⟩ := @process_of_consistent options _ _ h
  obtain ⟨s', hs', -, hparsed⟩ := hfaithful.message
  obtain rfl := Except.ok.inj (hs.symm.trans hs')
  intro t ht htype
  obtain ⟨k, hk⟩ := List.mem_iff_getElem?.mp ht
  obtain ⟨hblock, hstreamed⟩ := final_of_assembled hassembled h.done hk
  rw [streamedText_of_streamed htype hstreamed]
  obtain ⟨index, item, text, whole, done⟩ := t
  cases item with
  | function_call call_id id name nameSpace given => exact hparsed k _ hblock
  | _ => cases htype

theorem faithful_of_streamed {events : List ResponseEvent} {ts : List Tracked}
    (h : Consistent events ts) (hall : AllStreamed options ts) : Faithful options events ts := by
  obtain ⟨s, hs, hassembled⟩ := @process_of_consistent options _ _ h
  refine ⟨⟨s, hs, content_of_assembled hassembled h.done, fun k toolCall hcall => ?_⟩,
    names_of_consistent h⟩
  have hlt : k < ts.length := by
    rw [← hassembled.length]
    exact (List.getElem?_eq_some_iff.mp hcall).1
  have hk := List.getElem?_eq_getElem hlt
  obtain ⟨hblock, hstreamed⟩ := final_of_assembled hassembled h.done hk
  have hfinal := Option.some.inj (hblock.symm.trans hcall)
  have hargs := hall _ (List.mem_of_getElem? hk)
  generalize ts[k] = t at hfinal hstreamed hargs
  obtain ⟨index, item, text, whole, done⟩ := t
  cases item with
  | function_call call_id id name nameSpace given =>
    have hparsed := hargs rfl
    rw [streamedText_of_streamed rfl hstreamed] at hparsed
    rw [hparsed, ← Block.toolCall.inj hfinal]
  | custom_tool_call call_id id name nameSpace input =>
    rw [show JsValue.parse _ = _ from hstreamed, ← Block.toolCall.inj hfinal]
  | _ => cases hfinal

/-- A consistent sequence is assembled faithfully if and only if the arguments of all function
calls are streamed. -/
theorem faithful_iff_streamed {events : List ResponseEvent} {ts : List Tracked}
    (h : Consistent events ts) : Faithful options events ts ↔ AllStreamed options ts :=
  ⟨streamed_of_faithful h, faithful_of_streamed h⟩

end Blocks

/-! ## Examples -/

/-- A parser that gives nothing, and no grammar tools. -/
def plainOptions : Options := ⟨fun _ => none, .empty⟩

def call (arguments : String) : OutputItem :=
  .function_call (js "c") (js "i") (js "n") none (some (js arguments))

/-- Two interleaved calls, one of a custom tool. -/
def interleaved : List ResponseEvent :=
  [.output_item_added 0 (call ""),
    .output_item_added 1 (.custom_tool_call (js "d") (js "j") (js "m") none none),
    .function_call_arguments_delta 0 (js "\x7b"),
    .custom_tool_call_input_delta 1 [0xD83D], .custom_tool_call_input_delta 1 [0xDE00],
    .function_call_arguments_done 0 (js "\x7b\x7d"), .output_item_done 0 (call "\x7b\x7d"),
    .output_item_done 1 (.custom_tool_call (js "d") (js "j") (js "m") none none), .completed]

def interleavedItems : List Tracked :=
  [⟨0, call "", js "\x7b", some (js "\x7b\x7d"), some (call "\x7b\x7d")⟩,
    ⟨1, .custom_tool_call (js "d") (js "j") (js "m") none none, [0xD83D, 0xDE00], none,
      some (.custom_tool_call (js "d") (js "j") (js "m") none none)⟩]

theorem consistent_interleaved : Consistent interleaved interleavedItems :=
  ⟨⟨interleaved.dropLast, rfl, by decide⟩, by decide⟩

theorem faithful_iff_streamed_interleaved :
    Faithful plainOptions interleaved interleavedItems := by
  refine (faithful_iff_streamed consistent_interleaved).mpr ?_
  rw [AllStreamed]
  decide

/-- The arguments come with the item that is added. -/
def givenAtStart : List ResponseEvent :=
  [.output_item_added 0 (call "\x7b\x7d"), .output_item_done 0 (call "\x7b\x7d"), .completed]

def givenItems : List Tracked :=
  [⟨0, call "\x7b\x7d", js "\x7b\x7d", none, some (call "\x7b\x7d")⟩]

/-- Nothing is streamed of them. -/
theorem arguments_not_streamed :
    Consistent givenAtStart givenItems ∧ ¬ Faithful plainOptions givenAtStart givenItems := by
  have hconsistent : Consistent givenAtStart givenItems :=
    ⟨⟨givenAtStart.dropLast, rfl, by decide⟩, by decide⟩
  refine ⟨hconsistent, fun hfaithful => ?_⟩
  have hall := streamed_of_faithful hconsistent hfaithful
  have hparsed := hall _ (List.mem_singleton.mpr rfl) rfl
  exact absurd hparsed (by decide)

end PiMono.Ai.ResponsesStream
