import PiMono.CodingAgent.ProjectMemory
import Mathlib.Algebra.Order.BigOperators.Group.List
import Mathlib.Algebra.Order.Ring.Nat

/-!
# The budget of the core memory

`Promotion` is the database together with the candidates that a running
`_promoteProjectMemory` still has to ask about, and `Promotion.step` what one event makes
of it: a session records a candidate, the user has a record forgotten, a call begins, the
user answers. `withinBudget_step` says what a step does to the budget. The one
step that is not checked against the budget is the promotion behind a demotion, and
`core_within_budget` says that the budget holds in a run exactly when each of these leaves
enough room.
-/

namespace PiMono

open ProjectMemoryDb

/-! ## The sum over the core -/

/-- What a record counts for. -/
def coreWeight (row : RecordRow) : Nat :=
  if row.record.tier = .core then memoryTokens row.record.content else 0

private theorem foldl_tokens (rs : List ProjectMemoryRecord) : ∀ acc : Nat,
    rs.foldl (fun total r => total + memoryTokens r.content) acc
      = acc + (rs.map fun r => memoryTokens r.content).sum := by
  induction rs with
  | nil => simp
  | cons r rs ih =>
    intro acc
    rw [List.foldl_cons, ih, List.map_cons, List.sum_cons, Nat.add_assoc]

theorem coreTokens_core (db : ProjectMemoryDb) :
    coreTokens db.core = (db.records.map coreWeight).sum := by
  have hfilter : ∀ rows : List RecordRow,
      (((rows.map (·.record)).filter (·.tier = .core)).map fun r => memoryTokens r.content).sum
        = (rows.map coreWeight).sum := by
    intro rows
    induction rows with
    | nil => rfl
    | cons row rows ih =>
      rw [List.map_cons, List.filter_cons, List.map_cons, List.sum_cons, ← ih, coreWeight]
      by_cases h : row.record.tier = .core <;> simp [h]
  rw [coreTokens, foldl_tokens, Nat.zero_add, ← hfilter]
  exact ((List.perm_insertionSort ..).map _).sum_nat

/-- A row's weight for another's, in a sum over rows of different ids. -/
private theorem sum_update {rows : List RecordRow} {row : RecordRow} {id : JsString}
    {f : RecordRow → RecordRow} (hnodup : (rows.map (·.record.id)).Nodup) (hrow : row ∈ rows)
    (hid : row.record.id = id) :
    ((rows.map fun r => if r.record.id = id then f r else r).map coreWeight).sum + coreWeight row
      = (rows.map coreWeight).sum + coreWeight (f row) := by
  induction rows with
  | nil => cases hrow
  | cons r rows ih =>
    obtain ⟨hr, hrows⟩ := List.nodup_cons.mp hnodup
    rcases List.mem_cons.mp hrow with rfl | hmem
    · have hothers : (rows.map fun r => if r.record.id = id then f r else r) = rows := by
        refine (List.map_congr_left fun r' hr' => ?_).trans (List.map_id' rows)
        rw [if_neg]
        rintro hid'
        exact hr (List.mem_map.mpr ⟨r', hr', hid'.trans hid.symm⟩)
      rw [List.map_cons, hothers, if_pos hid, List.map_cons, List.map_cons, List.sum_cons,
        List.sum_cons]
      omega
    · have hne : r.record.id ≠ id := by
        rintro hid'
        exact hr (List.mem_map.mpr ⟨row, hmem, hid.trans hid'.symm⟩)
      have := ih hrows hmem
      rw [List.map_cons, if_neg hne, List.map_cons, List.map_cons, List.sum_cons, List.sum_cons]
      omega

/-- Approving a record of the database: its weight goes and the new one comes. -/
theorem coreTokens_approve {db : ProjectMemoryDb} {row : RecordRow} (hrow : row ∈ db.records)
    (tier : ProjectMemoryTier) (now : JsString) :
    coreTokens (db.approve row.record.id tier now).core + coreWeight row
      = coreTokens db.core + if tier = .core then memoryTokens row.record.content else 0 := by
  rw [coreTokens_core, coreTokens_core]
  exact sum_update db.ids hrow rfl

/-- Out of the core, or not into it: the core does not grow. -/
theorem coreTokens_updateRecord_le {db : ProjectMemoryDb} (id : JsString)
    {f : ProjectMemoryRecord → ProjectMemoryRecord} (h : ∀ r, (f r).id = r.id)
    (hf : ∀ r, (f r).tier ≠ .core) :
    coreTokens (db.updateRecord id f h).core ≤ coreTokens db.core := by
  rw [coreTokens_core, coreTokens_core]
  show ((db.records.map _).map coreWeight).sum ≤ _
  rw [List.map_map]
  refine List.sum_le_sum fun row _ => ?_
  show coreWeight (if _ then _ else _) ≤ _
  split
  · simp [coreWeight, hf]
  · exact Nat.le_refl _

theorem coreTokens_addCandidate {env : MemoryEnv} {db db' : ProjectMemoryDb}
    {content now : JsString} {kind : ProjectMemoryKind} {evidence : ProjectMemoryEvidence}
    {r : ProjectMemoryRecord} (h : db.addCandidate env content kind evidence now = .ok (r, db')) :
    coreTokens db'.core = coreTokens db.core := by
  rw [coreTokens_core, coreTokens_core]
  rcases records_addCandidate h with hsame | hnew
  · rw [hsame]
  · rw [hnew, List.map_append, List.sum_append]
    rfl

/-! ## Events -/

/-- The database and the candidates that a call of `_promoteProjectMemory` still asks
about. -/
structure Promotion where
  db : ProjectMemoryDb
  pending : List ProjectMemoryRecord

/-- What can happen. -/
inductive PromotionEvent where
  /-- A session records a candidate, also while a question is open. -/
  | record (content : JsString) (kind : ProjectMemoryKind) (evidence : ProjectMemoryEvidence)
    (now : JsString)
  | forget (id : JsString)
  /-- `_promoteProjectMemory` is called. -/
  | call
  /-- The questions about the next candidate are answered. -/
  | answer (answers : PromotionAnswers) (now : JsString)

namespace Promotion

def start : Promotion := ⟨.empty, []⟩

/-- One event. An operation that throws leaves the database; a call that throws ends. -/
def step (env : MemoryEnv) (s : Promotion) : PromotionEvent → Promotion
  | .record content kind evidence now =>
    match s.db.addCandidate env content kind evidence now with
    | .ok (_, db) => { s with db := db }
    | .error _ => s
  | .forget id => { s with db := s.db.forget id }
  | .call => if s.pending = [] then { s with pending := s.db.readyCandidates } else s
  | .answer answers now =>
    match s.pending with
    | [] => s
    | candidate :: rest =>
      match promoteCandidate env s.db candidate answers now with
      | .ok db => ⟨db, rest⟩
      | .error _ => ⟨s.db, []⟩

def run (env : MemoryEnv) (s : Promotion) (events : List PromotionEvent) : Promotion :=
  events.foldl (step env) s

theorem run_concat (env : MemoryEnv) (s : Promotion) (events : List PromotionEvent)
    (e : PromotionEvent) : run env s (events ++ [e]) = (run env s events).step env e := by
  rw [run, List.foldl_append]
  rfl

/-- The core is within its budget. -/
def WithinBudget (s : Promotion) : Prop := coreTokens s.db.core ≤ coreBudget

/-- A record that the user demotes for a candidate which does not fit makes room for it. -/
def MakesRoom (s : Promotion) : PromotionEvent → Prop
  | .answer answers _ =>
    ∀ candidate rest r, s.pending = candidate :: rest → answers.choice = some .promoteToCore →
      coreBudget < coreTokens s.db.core + memoryTokens candidate.content →
      chosenCore s.db.core answers.demote = some r →
        coreTokens s.db.core + memoryTokens candidate.content
          ≤ coreBudget + memoryTokens r.content
  | .record .. | .forget _ | .call => True

/-- A candidate of a snapshot is still in a database, and not in its core. -/
def Stored (db : ProjectMemoryDb) (c : ProjectMemoryRecord) : Prop :=
  ∃ row ∈ db.records, row.record.id = c.id ∧ row.record.content = c.content ∧
    row.record.tier ≠ .core

/-- What is asked about is in the database, and none of it is in the core. -/
structure Inv (s : Promotion) : Prop where
  nodup : (s.pending.map (·.id)).Nodup
  stored : ∀ c ∈ s.pending, Stored s.db c

theorem inv_start : start.Inv := ⟨List.nodup_nil, nofun⟩

theorem stored_addCandidate {env : MemoryEnv} {db db' : ProjectMemoryDb}
    {content now : JsString} {kind : ProjectMemoryKind} {evidence : ProjectMemoryEvidence}
    {r c : ProjectMemoryRecord} (h : db.addCandidate env content kind evidence now = .ok (r, db'))
    (hc : Stored db c) : Stored db' c := by
  obtain ⟨row, hrow, hrest⟩ := hc
  refine ⟨row, ?_, hrest⟩
  rcases records_addCandidate h with hsame | hnew
  · rwa [hsame]
  · rw [hnew]
    exact List.mem_append_left _ hrow

/-- Another tier than the core, or another record's. -/
theorem stored_approve {db : ProjectMemoryDb} {c : ProjectMemoryRecord} (hc : Stored db c)
    {id : JsString} {tier : ProjectMemoryTier} (now : JsString) (h : tier ≠ .core ∨ c.id ≠ id) :
    Stored (db.approve id tier now) c := by
  obtain ⟨row, hrow, hid, hcontent, htier⟩ := hc
  refine ⟨_, List.mem_map_of_mem hrow, ?_⟩
  split
  · rename_i heq
    refine ⟨hid, hcontent, ?_⟩
    rcases h with h | h
    · exact h
    · exact absurd (hid.symm.trans heq) h
  · exact ⟨hid, hcontent, htier⟩

theorem stored_forget {db : ProjectMemoryDb} {c : ProjectMemoryRecord} (hc : Stored db c)
    (id : JsString) : Stored (db.forget id) c := by
  obtain ⟨row, hrow, hid, hcontent, htier⟩ := hc
  refine ⟨_, List.mem_map_of_mem hrow, ?_⟩
  split
  · exact ⟨hid, hcontent, nofun⟩
  · exact ⟨hid, hcontent, htier⟩

theorem readyCandidates_perm (db : ProjectMemoryDb) : ∃ p : ProjectMemoryRecord → Bool,
    db.readyCandidates.Perm ((db.records.map (·.record)).filter p) ∧
      ∀ r, p r = true → r.tier = .candidate :=
  ⟨_, List.perm_insertionSort .., fun r hr => by
    rw [decide_eq_true_eq] at hr
    exact hr.1⟩

/-- The candidates of a call are candidates of the database. -/
theorem inv_call (db : ProjectMemoryDb) : Inv ⟨db, db.readyCandidates⟩ := by
  obtain ⟨p, hperm, hp⟩ := readyCandidates_perm db
  constructor
  · refine ((hperm.map (·.id)).nodup_iff).mpr ?_
    have hids : ((db.records.map (·.record)).map (·.id)).Nodup := by
      rw [List.map_map]
      exact db.ids
    exact hids.sublist (List.filter_sublist.map _)
  · intro c hc
    obtain ⟨hmem, hcp⟩ := List.mem_filter.mp (hperm.mem_iff.mp hc)
    obtain ⟨row, hrow, rfl⟩ := List.mem_map.mp hmem
    refine ⟨row, hrow, rfl, rfl, ?_⟩
    rw [hp _ hcp]
    nofun

/-- What an answer does with the candidates behind. -/
theorem stored_promoteCandidate {env : MemoryEnv} {db db' : ProjectMemoryDb}
    {candidate c : ProjectMemoryRecord} {answers : PromotionAnswers} {now : JsString}
    (h : promoteCandidate env db candidate answers now = .ok db') (hc : Stored db c)
    (hne : c.id ≠ candidate.id) : Stored db' c := by
  unfold promoteCandidate at h
  split at h
  · cases h
    exact stored_approve hc now (Or.inl nofun)
  · split at h
    · cases h
      exact stored_approve hc now (Or.inr hne)
    · split at h
      · cases h
        have harchive : ProjectMemoryTier.archive ≠ .core := nofun
        exact stored_approve (stored_approve hc now (Or.inl harchive)) now (Or.inr hne)
      · cases h
        exact hc
  · split at h
    · split at h
      · cases h
        exact hc
      · obtain ⟨⟨edited, db''⟩, hadd, h⟩ := Except.bind_eq_ok.mp h
        cases h
        exact stored_approve (stored_addCandidate hadd hc) now (Or.inl nofun)
    · cases h
      exact hc
  · cases h
    exact hc
  · cases h
    exact hc

theorem Inv.step {env : MemoryEnv} {s : Promotion} (h : s.Inv) (e : PromotionEvent) :
    (s.step env e).Inv := by
  cases e with
  | record content kind evidence now =>
    unfold Promotion.step
    simp only
    split
    · rename_i hadd
      exact ⟨h.nodup, fun c hc => stored_addCandidate hadd (h.stored c hc)⟩
    · exact h
  | forget id => exact ⟨h.nodup, fun c hc => stored_forget (h.stored c hc) id⟩
  | call =>
    unfold Promotion.step
    simp only
    split
    · exact inv_call s.db
    · exact h
  | answer answers now =>
    unfold Promotion.step
    simp only
    split
    · exact h
    · rename_i candidate rest hpending
      have hnodup := h.nodup
      rw [hpending] at hnodup
      obtain ⟨hcandidate, hrest⟩ := List.nodup_cons.mp hnodup
      split
      · rename_i hpromote
        refine ⟨hrest, fun c hc => stored_promoteCandidate hpromote ?_ ?_⟩
        · exact h.stored c (hpending ▸ List.mem_cons_of_mem _ hc)
        · intro heq
          exact hcandidate (List.mem_map.mpr ⟨c, hc, heq⟩)
      · exact ⟨List.nodup_nil, nofun⟩

theorem Inv.run {env : MemoryEnv} (events : List PromotionEvent) : (start.run env events).Inv := by
  induction events using List.reverseRecOn with
  | nil => exact inv_start
  | append_singleton events e ih =>
    rw [run_concat]
    exact ih.step e

/-! ## What a step does to the core -/

/-- Promoting a candidate adds its tokens. -/
theorem coreTokens_promote {db : ProjectMemoryDb} {c : ProjectMemoryRecord} (hc : Stored db c)
    (now : JsString) : coreTokens (db.approve c.id .core now).core
      = coreTokens db.core + memoryTokens c.content := by
  obtain ⟨row, hrow, hid, hcontent, htier⟩ := hc
  have h := coreTokens_approve hrow .core now
  rw [coreWeight, if_neg htier, hid, if_pos rfl, hcontent] at h
  exact h

theorem mem_of_chosenCore {core : List ProjectMemoryRecord} {demote : Option JsString}
    {r : ProjectMemoryRecord} (h : chosenCore core demote = some r) : r ∈ core := by
  unfold chosenCore at h
  split at h
  · cases h
  · split at h
    · cases h
    · exact List.mem_of_find?_eq_some h

/-- Demoting a record of the core takes its tokens away. -/
theorem coreTokens_demote {db : ProjectMemoryDb} {r : ProjectMemoryRecord} (hr : r ∈ db.core)
    (now : JsString) : coreTokens (db.demote r.id now).core + memoryTokens r.content
      = coreTokens db.core := by
  obtain ⟨hmem, htier⟩ := List.mem_filter.mp ((List.perm_insertionSort ..).mem_iff.mp hr)
  obtain ⟨row, hrow, rfl⟩ := List.mem_map.mp hmem
  have h := coreTokens_approve hrow .archive now
  rw [coreWeight, if_pos (of_decide_eq_true htier), if_neg nofun] at h
  exact h

theorem coreTokens_archive_le {db : ProjectMemoryDb} (id now : JsString) :
    coreTokens (db.approve id .archive now).core ≤ coreTokens db.core :=
  coreTokens_updateRecord_le id _ fun _ => nofun

/-- What the answers about a candidate do to the core: only the promotion behind a demotion
is not held against the budget. -/
theorem coreTokens_promoteCandidate {env : MemoryEnv} {db db' : ProjectMemoryDb}
    {c : ProjectMemoryRecord} {answers : PromotionAnswers} {now : JsString} (hc : Stored db c)
    (hbudget : coreTokens db.core ≤ coreBudget)
    (h : promoteCandidate env db c answers now = .ok db') :
    (∃ r, answers.choice = some .promoteToCore ∧
      coreBudget < coreTokens db.core + memoryTokens c.content ∧
      chosenCore db.core answers.demote = some r ∧
      coreTokens db'.core + memoryTokens r.content
        = coreTokens db.core + memoryTokens c.content) ∨
    ((¬ ∃ r, answers.choice = some .promoteToCore ∧
      coreBudget < coreTokens db.core + memoryTokens c.content ∧
      chosenCore db.core answers.demote = some r) ∧ coreTokens db'.core ≤ coreBudget) := by
  unfold promoteCandidate at h
  split at h
  · rename_i hchoice
    cases h
    exact Or.inr ⟨by simp [hchoice], (coreTokens_archive_le ..).trans hbudget⟩
  · rename_i hchoice
    split at h
    · rename_i hfits
      cases h
      refine Or.inr ⟨?_, ?_⟩
      · rintro ⟨r, -, hfull, -⟩
        omega
      · rwa [coreTokens_promote hc]
    · rename_i hfull
      split at h
      · rename_i r hr
        cases h
        have harchive : ProjectMemoryTier.archive ≠ .core := nofun
        have hstored : Stored (db.demote r.id now) c := stored_approve hc now (Or.inl harchive)
        have hpromote := coreTokens_promote hstored now
        have hdemote := coreTokens_demote (mem_of_chosenCore hr) now
        refine Or.inl ⟨r, hchoice, Nat.not_le.mp hfull, hr, ?_⟩
        rw [hpromote]
        omega
      · rename_i hnone
        cases h
        refine Or.inr ⟨?_, hbudget⟩
        rintro ⟨r, -, -, hr⟩
        rw [hnone] at hr
        cases hr
  · rename_i hchoice
    refine Or.inr ⟨by simp [hchoice], ?_⟩
    split at h
    · split at h
      · cases h
        exact hbudget
      · obtain ⟨⟨edited, db''⟩, hadd, h⟩ := Except.bind_eq_ok.mp h
        cases h
        refine (coreTokens_archive_le ..).trans ?_
        rwa [coreTokens_addCandidate hadd]
    · cases h
      exact hbudget
  · rename_i hchoice
    cases h
    exact Or.inr ⟨by simp [hchoice], hbudget⟩
  · rename_i hchoice
    cases h
    exact Or.inr ⟨by simp [hchoice], hbudget⟩

/-- From a state within the budget, a step stays within it exactly when it makes room. -/
theorem withinBudget_step {env : MemoryEnv} {s : Promotion} (h : s.Inv)
    (hbudget : s.WithinBudget) (e : PromotionEvent) :
    (s.step env e).WithinBudget ↔ s.MakesRoom e := by
  cases e with
  | record content kind evidence now =>
    refine iff_of_true ?_ trivial
    unfold Promotion.step
    simp only
    split
    · rename_i hadd
      show coreTokens _ ≤ _
      rwa [coreTokens_addCandidate hadd]
    · exact hbudget
  | forget id =>
    have hforgotten : ProjectMemoryTier.forgotten ≠ .core := nofun
    have hle : coreTokens (s.db.forget id).core ≤ coreTokens s.db.core :=
      coreTokens_updateRecord_le id _ fun _ => hforgotten
    exact iff_of_true (hle.trans hbudget) trivial
  | call =>
    refine iff_of_true ?_ trivial
    unfold Promotion.step
    simp only
    split
    · exact hbudget
    · exact hbudget
  | answer answers now =>
    unfold Promotion.step MakesRoom
    simp only
    split
    · rename_i hpending
      refine iff_of_true hbudget ?_
      intro candidate rest r hcons
      rw [hpending] at hcons
      cases hcons
    · rename_i candidate rest hpending
      have hstored := h.stored candidate (hpending ▸ List.mem_cons_self)
      split
      · rename_i db' hpromote
        rcases coreTokens_promoteCandidate hstored hbudget hpromote with
          ⟨r, hchoice, hfull, hr, htokens⟩ | ⟨hnot, hle⟩
        · constructor
          · rintro (hwithin : coreTokens db'.core ≤ coreBudget) c' rest' r' hcons - - hr'
            obtain ⟨rfl, -⟩ := List.cons.inj (hpending.symm.trans hcons)
            obtain rfl := Option.some.inj (hr.symm.trans hr')
            omega
          · intro hroom
            have := hroom candidate rest r hpending hchoice hfull hr
            show coreTokens db'.core ≤ coreBudget
            omega
        · refine iff_of_true hle ?_
          intro c' rest' r' hcons hchoice hfull hr
          obtain ⟨rfl, -⟩ := List.cons.inj (hpending.symm.trans hcons)
          exact absurd ⟨r', hchoice, hfull, hr⟩ hnot
      · rename_i hthrows
        refine iff_of_true hbudget ?_
        intro c' rest' r' hcons hchoice hfull hr
        obtain ⟨rfl, -⟩ := List.cons.inj (hpending.symm.trans hcons)
        simp only [promoteCandidate, hchoice, if_neg (Nat.not_le.mpr hfull), hr] at hthrows
        cases hthrows

/-- The core stays within its budget through a run exactly when every record that the user
demotes makes room for its candidate. -/
theorem core_within_budget (env : MemoryEnv) (events : List PromotionEvent) :
    (∀ pre post, events = pre ++ post → (start.run env pre).WithinBudget) ↔
      ∀ pre e post, events = pre ++ e :: post → (start.run env pre).MakesRoom e := by
  constructor
  · intro h pre e post hsplit
    rw [← withinBudget_step (Inv.run pre) (h pre (e :: post) hsplit), ← run_concat]
    exact h (pre ++ [e]) post (by simpa using hsplit)
  · intro h pre
    induction pre using List.reverseRecOn with
    | nil => exact fun _ _ => Nat.zero_le _
    | append_singleton pre e ih =>
      intro post hsplit
      have hsplit' : events = pre ++ e :: post := by simpa using hsplit
      rw [run_concat, withinBudget_step (Inv.run pre) (ih (e :: post) hsplit')]
      exact h pre e post hsplit'

/-! ## A core that outgrows its budget -/

def sampleNow : JsString := js "2026-01-01T00:00:00.000Z"

/-- One letter again and again, `2 * n + 1` units long. -/
def letters (letter : String) (n : Nat) : JsString :=
  js letter ++ (List.replicate n (js " " ++ js letter)).flatten

/-- No two contents of the run below have a word in common. -/
def sampleEnv : MemoryEnv where
  toLocaleLowerCase := id
  isLetterOrNumber c := c.isAlphanum
  sha256 text :=
    match text.head? with
    | some 0x61 => js "20e2a7000d1e1aaf6126784dd3d3f3c86120879cb5f1cf3871033e5208512a25"
    | some 0x62 => js "2181f58fe8514fced6b1f32c6f2bb60aa7b4e0fbb5af9dbd84a7120b26fe7860"
    | some 0x63 => js "f12e59fb74952e2e6c9bd4e81c858281cf70086f97bc084a0f62d9421073ce56"
    | some 0x64 => js "94aeb371fa0febc3b036a27b01a96dd0f8315852aab1c303a471cd66de39381e"
    | some 0x65 => js "dda641c5a0df7308d61392aa63c29e9adeb5c5952781b5833e4fb76e4bf4dcd0"
    | some 0x66 => js "2d5a18477c086ee5fb043c8fa3852aefa9d5e64d345ffe358906ab75087b9794"
    | _ => []
  matchRows _ _ := []

/-- Its digests, character by character. -/
theorem sampleEnv_eq : sampleEnv = {
  toLocaleLowerCase := id
  isLetterOrNumber c := c.isAlphanum
  sha256 text :=
    match text.head? with
    | some 0x61 => List.flatMap utf16 ['2', '0', 'e', '2', 'a', '7', '0', '0', '0', 'd', '1', 'e',
        '1', 'a', 'a', 'f',
        '6', '1', '2', '6', '7', '8', '4', 'd', 'd', '3', 'd', '3', 'f', '3', 'c', '8',
        '6', '1', '2', '0', '8', '7', '9', 'c', 'b', '5', 'f', '1', 'c', 'f', '3', '8',
        '7', '1', '0', '3', '3', 'e', '5', '2', '0', '8', '5', '1', '2', 'a', '2', '5']
    | some 0x62 => List.flatMap utf16 ['2', '1', '8', '1', 'f', '5', '8', 'f', 'e', '8', '5', '1',
        '4', 'f', 'c', 'e',
        'd', '6', 'b', '1', 'f', '3', '2', 'c', '6', 'f', '2', 'b', 'b', '6', '0', 'a',
        'a', '7', 'b', '4', 'e', '0', 'f', 'b', 'b', '5', 'a', 'f', '9', 'd', 'b', 'd',
        '8', '4', 'a', '7', '1', '2', '0', 'b', '2', '6', 'f', 'e', '7', '8', '6', '0']
    | some 0x63 => List.flatMap utf16 ['f', '1', '2', 'e', '5', '9', 'f', 'b', '7', '4', '9', '5',
        '2', 'e', '2', 'e',
        '6', 'c', '9', 'b', 'd', '4', 'e', '8', '1', 'c', '8', '5', '8', '2', '8', '1',
        'c', 'f', '7', '0', '0', '8', '6', 'f', '9', '7', 'b', 'c', '0', '8', '4', 'a',
        '0', 'f', '6', '2', 'd', '9', '4', '2', '1', '0', '7', '3', 'c', 'e', '5', '6']
    | some 0x64 => List.flatMap utf16 ['9', '4', 'a', 'e', 'b', '3', '7', '1', 'f', 'a', '0', 'f',
        'e', 'b', 'c', '3',
        'b', '0', '3', '6', 'a', '2', '7', 'b', '0', '1', 'a', '9', '6', 'd', 'd', '0',
        'f', '8', '3', '1', '5', '8', '5', '2', 'a', 'a', 'b', '1', 'c', '3', '0', '3',
        'a', '4', '7', '1', 'c', 'd', '6', '6', 'd', 'e', '3', '9', '3', '8', '1', 'e']
    | some 0x65 => List.flatMap utf16 ['d', 'd', 'a', '6', '4', '1', 'c', '5', 'a', '0', 'd', 'f',
        '7', '3', '0', '8',
        'd', '6', '1', '3', '9', '2', 'a', 'a', '6', '3', 'c', '2', '9', 'e', '9', 'a',
        'd', 'e', 'b', '5', 'c', '5', '9', '5', '2', '7', '8', '1', 'b', '5', '8', '3',
        '3', 'e', '4', 'f', 'b', '7', '6', 'e', '4', 'b', 'f', '4', 'd', 'c', 'd', '0']
    | some 0x66 => List.flatMap utf16 ['2', 'd', '5', 'a', '1', '8', '4', '7', '7', 'c', '0', '8',
        '6', 'e', 'e', '5',
        'f', 'b', '0', '4', '3', 'c', '8', 'f', 'a', '3', '8', '5', '2', 'a', 'e', 'f',
        'a', '9', 'd', '5', 'e', '6', '4', 'd', '3', '4', '5', 'f', 'f', 'e', '3', '5',
        '8', '9', '0', '6', 'a', 'b', '7', '5', '0', '8', '7', 'b', '9', '7', '9', '4']
    | _ => []
  matchRows _ _ := [] } := by
  simp only [← js_ofList]
  rfl

/-- Two sessions record a content and the user promotes it. -/
def corroborated (content : JsString) (demote : Option JsString) : List PromotionEvent :=
  [.record content .convention ⟨js "s1", js "e", js "x", none, none, none⟩ sampleNow,
    .record content .convention ⟨js "s2", js "e", js "x", none, none, none⟩ sampleNow,
    .call, .answer ⟨some .promoteToCore, demote, none⟩ sampleNow]

/-- A record of one token, and four that fill the core up to its 1200 tokens. -/
def fullCore : List PromotionEvent :=
  corroborated (letters "a" 0) none ++ corroborated (letters "b" 598) none
    ++ corroborated (letters "c" 598) none ++ corroborated (letters "d" 598) none
    ++ corroborated (letters "e" 596) none

/-- A candidate of two tokens takes the place of a record of one. -/
theorem core_within_budget_not : ¬ ∀ (env : MemoryEnv) (events : List PromotionEvent),
    (start.run env events).WithinBudget := by
  intro h
  have hover : ¬ coreTokens (start.run sampleEnv (fullCore ++ corroborated (letters "f" 2)
      (some (js "[20e2a7000d1e1aaf] a")))).db.core ≤ coreBudget := by
    rw [sampleEnv_eq]
    decide +kernel
  exact hover (h _ _)

end Promotion

end PiMono
