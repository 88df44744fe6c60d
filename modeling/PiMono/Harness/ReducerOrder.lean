import Mathlib.Data.List.Nodup
import Mathlib.Data.List.Perm.Basic
import PiMono.Harness.Reducer

/-!
# The order in which a backend returns rows

`reduceLaneState` sorts what it reads in order, and looks the rest up by id. With distinct
sequence numbers and distinct ids neither depends on the order of the arrays:
`reduceLaneState_perm`.
-/

namespace PiMono

namespace JsMap

variable {κ α : Type} [DecidableEq κ]

theorem mem_entries_iff {m : JsMap κ α} {k : κ} {v : α} : (k, v) ∈ m.entries ↔ m.get? k = some v :=
  ⟨fieldValue?_of_mem m.nodup, mem_of_get?⟩

/-- Maps with the same content have the same pairs, in some order. -/
theorem entries_perm {m m' : JsMap κ α} (h : m.get? = m'.get?) : m.entries.Perm m'.entries := by
  refine (List.perm_ext_iff_of_nodup m.nodup.of_map m'.nodup.of_map).mpr ?_
  rintro ⟨k, v⟩
  rw [mem_entries_iff, mem_entries_iff, h]

variable {key : α → κ}

/-- Of two lists the later one decides. -/
theorem get?_index_append (xs ys : List α) (k : κ) :
    (index key (xs ++ ys)).get? k = ((index key ys).get? k).or ((index key xs).get? k) := by
  induction ys using List.reverseRecOn with
  | nil => rw [List.append_nil]; rfl
  | append_singleton ys y ih =>
    rw [← List.append_assoc, index_append_singleton, index_append_singleton, get?_set, get?_set, ih]
    split <;> rfl

/-- An item stands under its key. -/
theorem mem_of_get?_index_some (xs : List α) {k : κ} {x : α} (h : (index key xs).get? k = some x) :
    x ∈ xs ∧ key x = k := by
  induction xs using List.reverseRecOn with
  | nil => cases h
  | append_singleton xs y ih =>
    rw [index_append_singleton, get?_set] at h
    split at h
    · rename_i heq
      obtain rfl := Option.some.inj h
      exact ⟨List.mem_append_right xs List.mem_cons_self, heq⟩
    · obtain ⟨hmem, hkey⟩ := ih h
      exact ⟨List.mem_append_left _ hmem, hkey⟩

/-- Items with distinct keys, in another order. -/
theorem get?_index_perm {xs ys : List α} (h : xs.Perm ys) (hkeys : (xs.map key).Nodup) :
    (index key xs).get? = (index key ys).get? := by
  have hkeys' : (ys.map key).Nodup := (h.map key).nodup_iff.mp hkeys
  have hiff : ∀ {zs : List α}, (zs.map key).Nodup → ∀ k z,
      (index key zs).get? k = some z ↔ z ∈ zs ∧ key z = k := by
    intro zs hzs k z
    refine ⟨mem_of_get?_index hzs, ?_⟩
    rintro ⟨hmem, rfl⟩
    exact get?_index_of_mem hzs hmem
  funext k
  refine Option.ext fun z => ?_
  rw [hiff hkeys, hiff hkeys', h.mem_iff]

end JsMap

namespace Harness.Lane

/-- Sorted by distinct numbers there is one order. -/
theorem bySequence_perm {α : Type} {seq : α → Nat} {xs ys : List α} (h : xs.Perm ys)
    (hseq : ∀ a ∈ xs, ∀ b ∈ xs, seq a = seq b → a = b) : bySequence seq xs = bySequence seq ys := by
  have hsorted : ∀ zs : List α, (bySequence seq zs).Pairwise fun a b => seq a ≤ seq b := by
    intro zs
    have hpairs : (zs.mergeSort (bySeq seq)).Pairwise fun a b => bySeq seq a b = true := by
      refine List.pairwise_mergeSort (fun a b c hab hbc => ?_) (fun a b => ?_) zs
      · exact decide_eq_true ((of_decide_eq_true hab).trans (of_decide_eq_true hbc))
      · rcases Nat.le_total (seq a) (seq b) with hle | hle
        · exact Bool.or_eq_true_iff.mpr (Or.inl (decide_eq_true hle))
        · exact Bool.or_eq_true_iff.mpr (Or.inr (decide_eq_true hle))
    exact hpairs.imp fun hab => of_decide_eq_true hab
  have hperm : (bySequence seq xs).Perm (bySequence seq ys) :=
    (List.mergeSort_perm xs _).trans (h.trans (List.mergeSort_perm ys _).symm)
  refine List.Perm.eq_of_pairwise (fun a b ha hb hab hba => ?_) (hsorted xs) (hsorted ys) hperm
  have ha : a ∈ xs := (List.mergeSort_perm xs _).mem_iff.mp ha
  have hb : b ∈ xs := h.mem_iff.mpr ((List.mergeSort_perm ys _).mem_iff.mp hb)
  exact hseq a ha b hb (Nat.le_antisymm hab hba)

section Order

variable {δ : Type} [DecidableEq δ]

/-- The same input, its arrays in another order. -/
structure Reordered (input input' : LaneReductionInput δ) : Prop where
  lane : input'.lane = input.lane
  openOperations : input'.openOperations = input.openOperations
  leafId : input'.leafId = input.leafId
  defaults : input'.defaults = input.defaults
  records : input.records.Perm input'.records
  entries : input.entries.Perm input'.entries
  ownEntries : input.ownEntries.Perm input'.ownEntries
  configurationEntries : input.configurationEntries.Perm input'.configurationEntries

/-- Sequence numbers tell records and entries apart: an entry may be in several arrays. -/
structure DistinctSeqs (input : LaneReductionInput δ) : Prop where
  records : (input.records.map LaneRecord.seq).Nodup
  entries : (input.entries.map Entry.seq).Nodup
  ownEntries : (input.ownEntries.map Entry.seq).Nodup
  configurationEntries : ∀ e ∈ input.configurationEntries ++ input.ownEntries,
    ∀ e' ∈ input.configurationEntries ++ input.ownEntries, e.seq = e'.seq → e.id = e'.id

/-- No array has two entries of one id. -/
structure DistinctIds (input : LaneReductionInput δ) : Prop where
  entries : (input.entries.map Entry.id).Nodup
  ownEntries : (input.ownEntries.map Entry.id).Nodup
  configurationEntries : (input.configurationEntries.map Entry.id).Nodup

/-- The same result, or corruption in both cases. -/
def SameOutcome {α : Type} (x y : Except RecordLogCorruption α) : Prop :=
  (∃ r, x = .ok r ∧ y = .ok r) ∨ ∃ e e', x = .error e ∧ y = .error e'

theorem SameOutcome.refl {α : Type} (x : Except RecordLogCorruption α) : SameOutcome x x := by
  cases x with
  | ok r => exact Or.inl ⟨r, rfl, rfl⟩
  | error e => exact Or.inr ⟨e, e, rfl, rfl⟩

/-- What is done next is the same. -/
theorem SameOutcome.bind {α β : Type} {x y : Except RecordLogCorruption α} (h : SameOutcome x y)
    {f g : α → Except RecordLogCorruption β} (hfg : ∀ a, SameOutcome (f a) (g a)) :
    SameOutcome (x >>= f) (y >>= g) := by
  rcases h with ⟨a, rfl, rfl⟩ | ⟨e, e', rfl, rfl⟩
  · exact hfg a
  · exact Or.inr ⟨e, e', rfl, rfl⟩

omit [DecidableEq δ] in
/-- Which handle is reported depends on the order, that one is missing does not. -/
theorem validateDeferredHandles_perm {xs ys : List (Entry δ)} (h : xs.Perm ys) :
    SameOutcome (validateDeferredHandles xs) (validateDeferredHandles ys) := by
  unfold validateDeferredHandles
  cases hx : xs.find? withoutHandle with
  | none =>
    have hy : ys.find? withoutHandle = none := by
      rw [List.find?_eq_none] at hx ⊢
      exact fun entry hentry => hx entry (h.mem_iff.mpr hentry)
    rw [hy]
    exact SameOutcome.refl _
  | some entry =>
    cases hy : ys.find? withoutHandle with
    | none =>
      rw [List.find?_eq_none] at hy
      exact absurd (List.find?_some hx) (hy entry (h.mem_iff.mp (List.mem_of_find?_eq_some hx)))
    | some entry' => exact Or.inr ⟨_, _, rfl, rfl⟩

theorem validateRecordLog_perm {input input' : LaneReductionInput δ} (h : Reordered input input')
    (hseqs : DistinctSeqs input) (hids : DistinctIds input) :
    SameOutcome
      (validateRecordLog input.lane input.openOperations input.records input.entries)
      (validateRecordLog input'.lane input'.openOperations input'.records input'.entries) := by
  have hrecords : bySequence LaneRecord.seq input.records
      = bySequence LaneRecord.seq input'.records :=
    bySequence_perm h.records fun a ha b hb => List.inj_on_of_nodup_map hseqs.records ha hb
  have hlookup := JsMap.get?_index_perm h.entries hids.entries
  unfold validateRecordLog
  rw [h.lane, h.openOperations]
  by_cases hopen : 1 < input.openOperations.length
  · rw [if_pos hopen, if_pos hopen]
    exact SameOutcome.refl _
  · rw [if_neg hopen, if_neg hopen]
    simp only [hrecords, hlookup]
    refine SameOutcome.bind (validateDeferredHandles_perm ?_) fun _ => SameOutcome.refl _
    exact (JsMap.entries_perm hlookup).map Prod.snd

omit [DecidableEq δ] in
/-- The configuration is that of the entries by their sequence numbers. -/
theorem deriveEffectiveConfiguration_perm {input input' : LaneReductionInput δ}
    (h : Reordered input input') (hseqs : DistinctSeqs input) (hids : DistinctIds input) :
    deriveEffectiveConfiguration input = deriveEffectiveConfiguration input' := by
  have hlookup : (JsMap.index Entry.id (input.configurationEntries ++ input.ownEntries)).get?
      = (JsMap.index Entry.id (input'.configurationEntries ++ input'.ownEntries)).get? := by
    funext id
    rw [JsMap.get?_index_append, JsMap.get?_index_append,
      JsMap.get?_index_perm h.ownEntries hids.ownEntries,
      JsMap.get?_index_perm h.configurationEntries hids.configurationEntries]
  have hvalues := (JsMap.entries_perm hlookup).map Prod.snd
  unfold deriveEffectiveConfiguration
  simp only
  have hinj : ∀ e ∈ (JsMap.index Entry.id
      (input.configurationEntries ++ input.ownEntries)).entries.map Prod.snd,
      ∀ e' ∈ (JsMap.index Entry.id
        (input.configurationEntries ++ input.ownEntries)).entries.map Prod.snd,
        e.seq = e'.seq → e = e' := by
    -- values of the map with one number have one id, so they are one value
    intro e he e' he' hseq
    obtain ⟨⟨id, e⟩, hmem, rfl⟩ := List.mem_map.mp he
    obtain ⟨⟨id', e'⟩, hmem', rfl⟩ := List.mem_map.mp he'
    have hget := JsMap.mem_entries_iff.mp hmem
    have hget' := JsMap.mem_entries_iff.mp hmem'
    obtain ⟨hin, rfl⟩ := JsMap.mem_of_get?_index_some _ hget
    obtain ⟨hin', rfl⟩ := JsMap.mem_of_get?_index_some _ hget'
    have hid := hseqs.configurationEntries e hin e' hin' hseq
    rw [hid, hget'] at hget
    exact (Option.some.inj hget).symm
  rw [h.defaults, bySequence_perm hvalues hinj]

/-- **Lane reduction is order independent.** -/
theorem reduceLaneState_perm {input input' : LaneReductionInput δ} (h : Reordered input input')
    (hseqs : DistinctSeqs input) (hids : DistinctIds input) :
    SameOutcome (reduceLaneState input) (reduceLaneState input') := by
  have hrecords : bySequence LaneRecord.seq input.records
      = bySequence LaneRecord.seq input'.records :=
    bySequence_perm h.records fun a ha b hb => List.inj_on_of_nodup_map hseqs.records ha hb
  have hown : bySequence Entry.seq input.ownEntries = bySequence Entry.seq input'.ownEntries :=
    bySequence_perm h.ownEntries fun a ha b hb => List.inj_on_of_nodup_map hseqs.ownEntries ha hb
  have hlookup : (JsMap.index Entry.id
        (input.entries ++ bySequence Entry.seq input.ownEntries)).get?
      = (JsMap.index Entry.id (input'.entries ++ bySequence Entry.seq input'.ownEntries)).get? := by
    funext id
    rw [JsMap.get?_index_append, JsMap.get?_index_append, hown,
      JsMap.get?_index_perm h.entries hids.entries]
  unfold reduceLaneState
  refine SameOutcome.bind (validateRecordLog_perm h hseqs hids) fun _ => ?_
  simp only
  rw [hlookup, hrecords, hown, h.lane, h.leafId, h.openOperations,
    deriveEffectiveConfiguration_perm h hseqs hids]
  exact SameOutcome.refl _

/-- Two entries of one id, the second of which is not what the queue has enqueued. -/
def twiceEntered (entries : List (Entry Unit)) : LaneReductionInput Unit where
  lane := js "main"
  openOperations := []
  records := [⟨js "r", 3, .queueEnqueued ⟨.nextRun, none, ⟨js "e", .custom ()⟩⟩⟩]
  entries := entries
  leafId := none
  ownEntries := []
  configurationEntries := []
  defaults := ⟨[], [], [], []⟩

/-- With one id twice the order decides whether the slice is corrupt. -/
theorem reduceLaneState_order :
    let first : Entry Unit := ⟨js "e", 1, .custom ()⟩
    let second : Entry Unit := ⟨js "e", 2, .compaction ()⟩
    Reordered (twiceEntered [second, first]) (twiceEntered [first, second]) ∧
      DistinctSeqs (twiceEntered [second, first]) ∧
      ¬ SameOutcome (reduceLaneState (twiceEntered [second, first]))
        (reduceLaneState (twiceEntered [first, second])) := by
  intro first second
  have hgood : (reduceLaneState (twiceEntered [second, first])).isOk = true := by decide +kernel
  have hbad : (reduceLaneState (twiceEntered [first, second])).isOk = false := by decide +kernel
  refine ⟨?_, ?_, ?_⟩
  · exact ⟨rfl, rfl, rfl, rfl, .refl _, .swap _ _ _, .refl _, .refl _⟩
  · exact ⟨by decide, by decide, by decide, by decide⟩
  · rintro (⟨r, -, hsecond⟩ | ⟨e, -, hfirst, -⟩)
    · rw [hsecond] at hbad
      cases hbad
    · rw [hfirst] at hgood
      cases hgood

/-- Two records in another order. -/
theorem reduceLaneState_perm_of_two :
    let first : LaneRecord Unit :=
      ⟨js "a", 1, .queueEnqueued ⟨.nextRun, none, ⟨js "x", .custom ()⟩⟩⟩
    let second : LaneRecord Unit := ⟨js "b", 2, .queueCancelled none (js "x")⟩
    let input : LaneReductionInput Unit := { twiceEntered [] with records := [first, second] }
    SameOutcome (reduceLaneState input)
      (reduceLaneState { input with records := [second, first] }) := by
  intro first second input
  refine reduceLaneState_perm ⟨rfl, rfl, rfl, rfl, .swap _ _ _, .refl _, .refl _, .refl _⟩ ?_ ?_
  · exact ⟨by decide, by decide, by decide, by decide⟩
  · exact ⟨by decide, by decide, by decide⟩

end Order

end Harness.Lane

end PiMono
