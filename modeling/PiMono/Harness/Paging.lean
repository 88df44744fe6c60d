import PiMono.Harness.StateInvariant

/-!
# Reading page by page

A query with a limit, and then the same query behind the last item of its page.
-/

namespace PiMono.Harness

/-- In an order, what stands behind the last item of a page is the rest. -/
theorem filter_behind_page {α : Type} {R : α → α → Prop} [DecidableRel R]
    (hasymm : ∀ a b, R a b → ¬ R b a) {l : List α} (h : l.Pairwise R) {n : Nat} {last : α}
    (hlast : (l.take n).getLast? = some last) : l.filter (R last ·) = l.drop n := by
  obtain ⟨init, hinit⟩ := List.getLast?_eq_some_iff.mp hlast
  rw [← List.take_append_drop n l, List.pairwise_append] at h
  have hpage : (l.take n).filter (R last ·) = [] := by
    rw [List.filter_eq_nil_iff]
    intro a ha hlater
    rw [decide_eq_true_eq] at hlater
    rw [hinit, List.pairwise_append] at h
    rw [hinit] at ha
    obtain ha | ha := List.mem_append.mp ha
    · exact hasymm _ _ hlater (h.1.2.2 a ha last List.mem_cons_self)
    · obtain rfl := List.mem_singleton.mp ha
      exact hasymm _ _ hlater hlater
  have hrest : (l.drop n).filter (R last ·) = l.drop n := List.filter_eq_self.mpr fun a ha =>
    decide_eq_true (h.2.2 last (List.mem_of_getLast? hlast) a ha)
  conv_lhs => rw [← List.take_append_drop n l]
  rw [List.filter_append, hpage, hrest, List.nil_append]

/-- `answer` for a query with the limit `n + 1`, without one, and behind an item of its page. -/
def Pages {α ε : Type} (n : Nat) (page all : Except ε (List α)) (behind : α → Except ε (List α)) :
    Prop :=
  ∃ items rest, page = .ok items ∧ all = .ok (items ++ rest) ∧ items.length ≤ n + 1 ∧
    (items = [] → rest = []) ∧ ∀ last, items.getLast? = some last → behind last = .ok rest

theorem pages_filter {α ε : Type} {R : α → α → Prop} [DecidableRel R]
    (hasymm : ∀ a b, R a b → ¬ R b a) {items : List α} (h : items.Pairwise R) {p : α → Bool}
    {q : α → α → Bool} (hq : ∀ last a, p last = true → q last a = (p a && decide (R last a)))
    (n : Nat) : @Pages α ε n (.ok ((items.filter p).take (n + 1))) (.ok (items.filter p))
      fun last => .ok (items.filter (q last)) := by
  refine ⟨_, (items.filter p).drop (n + 1), rfl, by rw [List.take_append_drop],
    List.length_take_le _ _, fun hnil => ?_, fun last hlast => congrArg _ ?_⟩
  · rw [(List.take_eq_nil_iff.mp hnil).resolve_left (Nat.succ_ne_zero n), List.drop_nil]
  · have hp := (List.mem_filter.mp (List.mem_of_mem_take (List.mem_of_getLast? hlast))).2
    rw [← filter_behind_page hasymm (h.filter p) hlast, List.filter_filter]
    exact List.filter_congr fun a _ => (hq last a hp).trans (Bool.and_comm _ _)

namespace SessionState

/-- **Pages of the log**: in every state that calls lead to, the pages that are read one behind the
other hold every item once and in order. -/
theorem pages_getLog (ms : List SessionMutation) (afterSeq : Option Nat) (n : Nat) :
    Pages n ((calledAll ms).getLog afterSeq (some (n + 1))) ((calledAll ms).getLog afterSeq none)
      fun last => (calledAll ms).getLog (some last.seq) none := by
  have hlog : (calledAll ms).log.Pairwise fun a b => a.seq < b.seq := by
    rw [← List.pairwise_map, (consistent_calledAll ms).seqs]
    exact List.pairwise_lt_range'
  refine pages_filter (fun _ _ => Nat.lt_asymm) hlog (fun last item hbehind => ?_) n
  cases afterSeq with
  | none => simp
  | some seq =>
    simp only [Option.all_some, decide_eq_true_eq] at hbehind ⊢
    rw [← Bool.decide_and, decide_eq_decide]
    omega

/-- **Pages of entries**, in both orders. -/
theorem pages_findEntries (ms : List SessionMutation) (query : EntryQuery) (n : Nat) :
    Pages n ((calledAll ms).findEntries { query with limit := some (n + 1) })
      ((calledAll ms).findEntries { query with limit := none })
      fun last => (calledAll ms).findEntries
        { query with cursor := some last.seq, limit := none } := by
  have hentries := List.pairwise_map.mp (consistent_calledAll ms).entries_ordered
  refine pages_filter (R := fun a b => if query.order = some .oldestFirst then a.seq < b.seq
    else b.seq < a.seq) ?_ ?_ (fun last e hbehind => ?_) n
  · intro a b
    split <;> exact Nat.lt_asymm
  · unfold ordered
    split
    · exact hentries
    · exact List.pairwise_reverse.mpr hentries
  · rw [Bool.eq_iff_iff]
    simp only [matchesEntryQuery, Bool.and_eq_true, Option.all_some, decide_eq_true_eq] at hbehind ⊢
    cases hcursor : query.cursor <;> split <;> simp_all
    all_goals omega

end SessionState

end PiMono.Harness
