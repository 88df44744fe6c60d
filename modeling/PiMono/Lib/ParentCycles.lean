import Mathlib.Data.Fintype.Card
import Mathlib.Data.List.Perm.Subperm
import Mathlib.Data.Set.Finite.List
import Mathlib.Logic.Relation
import Mathlib.Order.WellFounded
import PiMono.Lib.ParentWalk

/-!
# When walks to the root end

Parent links that nobody checked may form a cycle, and then a walk along them never
ends. `WalkEnds` is the loop without fuel. `walkUp_isSome_iff` says that the fuel of
`walkUp` is no limit: as much as there are entries is enough for every walk that ends.
`walkEnds_iff_acyclic` says that all walks end exactly if no entry is its own ancestor.
-/

namespace PiMono

section ParentCycles

variable {κ α : Type} (get : κ → Option α) (parent : α → Option κ)

/-- `b` is the entry that the parent link of `a` names. -/
def ParentOf (a b : α) : Prop := (parent a).bind get = some b

/-- No entry is among its own ancestors. -/
def AcyclicLinks : Prop := ∀ a, ¬Relation.TransGen (ParentOf get parent) a a

/-- The loop `while (current) current = get(current.parent)` ends. -/
inductive WalkEnds : Option α → Prop where
  | root : WalkEnds none
  | up {a : α} : WalkEnds ((parent a).bind get) → WalkEnds (some a)

variable {get parent}

/-! ## Fuel -/

theorem walkEnds_of_walkUp {n : Nat} {start : Option α} {path : List α}
    (h : walkUp get parent n start = some path) : WalkEnds get parent start := by
  induction n generalizing start path with
  | zero =>
    cases start with
    | none => exact .root
    | some a => cases h
  | succ n ih =>
    cases start with
    | none => exact .root
    | some a =>
      rw [walkUp] at h
      obtain ⟨rest, hrest, -⟩ := Option.map_eq_some_iff.mp h
      exact .up (ih hrest)

theorem walkUp_mono {n m : Nat} {start : Option α} {path : List α}
    (h : walkUp get parent n start = some path) (hm : n ≤ m) :
    walkUp get parent m start = some path := by
  induction n generalizing m start path with
  | zero =>
    cases start with
    | none =>
      cases h
      cases m <;> rfl
    | some a => cases h
  | succ n ih =>
    obtain ⟨m, rfl⟩ : ∃ k, m = k + 1 := ⟨m - 1, by omega⟩
    cases start with
    | none => exact h
    | some a =>
      rw [walkUp] at h ⊢
      obtain ⟨rest, hrest, rfl⟩ := Option.map_eq_some_iff.mp h
      rw [ih hrest (by omega), Option.map_some]

theorem exists_walkUp {start : Option α} (h : WalkEnds get parent start) :
    ∃ n path, walkUp get parent n start = some path := by
  induction h with
  | root => exact ⟨0, [], rfl⟩
  | up _ ih =>
    obtain ⟨n, path, hpath⟩ := ih
    exact ⟨n + 1, _, by rw [walkUp, hpath, Option.map_some]⟩

/-- A walk takes no more fuel than it has entries. -/
theorem walkUp_length {n : Nat} {start : Option α} {path : List α}
    (h : walkUp get parent n start = some path) :
    walkUp get parent path.length start = some path := by
  induction n generalizing start path with
  | zero =>
    cases start with
    | none =>
      cases h
      rfl
    | some a => cases h
  | succ n ih =>
    cases start with
    | none =>
      cases h
      rfl
    | some a =>
      rw [walkUp] at h
      obtain ⟨rest, hrest, rfl⟩ := Option.map_eq_some_iff.mp h
      rw [List.length_cons, walkUp, ih hrest, Option.map_some]

/-- Every entry of a walk starts the rest of it. -/
theorem walkUp_suffix {n : Nat} {start : Option α} {front rest : List α} {a : α}
    (h : walkUp get parent n start = some (front ++ a :: rest)) :
    ∃ m, walkUp get parent m (some a) = some (a :: rest) := by
  induction front generalizing n start with
  | nil =>
    cases start with
    | none => cases n <;> cases h
    | some b =>
      cases n with
      | zero => cases h
      | succ n =>
        rw [walkUp] at h
        obtain ⟨rest', hrest', heq⟩ := Option.map_eq_some_iff.mp h
        obtain ⟨rfl, rfl⟩ := List.cons.inj heq
        exact ⟨n + 1, by rw [walkUp, hrest', Option.map_some]⟩
  | cons c front ih =>
    cases start with
    | none => cases n <;> cases h
    | some b =>
      cases n with
      | zero => cases h
      | succ n =>
        rw [walkUp] at h
        obtain ⟨rest', hrest', heq⟩ := Option.map_eq_some_iff.mp h
        rw [(List.cons.inj heq).2] at hrest'
        exact ih hrest'

/-- A walk that ends passes no entry twice: from there it would do the same again. -/
theorem nodup_of_walkUp {n : Nat} {start : Option α} {path : List α}
    (h : walkUp get parent n start = some path) : path.Nodup := by
  induction path generalizing n start with
  | nil => exact List.nodup_nil
  | cons a rest ih =>
    have hfront : walkUp get parent n start = some ([] ++ a :: rest) := h
    obtain ⟨m, hm⟩ := walkUp_suffix hfront
    cases m with
    | zero => cases hm
    | succ m =>
      rw [walkUp] at hm
      obtain ⟨rest', hrest, heq⟩ := Option.map_eq_some_iff.mp hm
      rw [(List.cons.inj heq).2] at hrest
      refine List.nodup_cons.mpr ⟨fun hmem => ?_, ih hrest⟩
      obtain ⟨front, back, hsplit⟩ := List.append_of_mem hmem
      obtain ⟨k, hk⟩ := walkUp_suffix (hsplit ▸ hrest)
      have hagain : walkUp get parent (max k (m + 1)) (some a) = some (a :: rest) := by
        refine walkUp_mono ?_ (Nat.le_max_right k (m + 1))
        rw [walkUp, hrest, Option.map_some]
      rw [walkUp_mono hk (Nat.le_max_left k (m + 1))] at hagain
      have hlength := congrArg List.length (List.cons.inj (Option.some.inj hagain)).2
      rw [hsplit, List.length_append, List.length_cons] at hlength
      omega

/-- All entries of a walk are found by their links, but for the first one. -/
theorem mem_of_walkUp {n : Nat} {start : Option α} {path : List α}
    (h : walkUp get parent n start = some path) {xs : List α}
    (hxs : ∀ k a, get k = some a → a ∈ xs) (hstart : ∀ a, start = some a → a ∈ xs) :
    ∀ a ∈ path, a ∈ xs := by
  induction n generalizing start path with
  | zero =>
    cases start with
    | none =>
      cases h
      simp
    | some a => cases h
  | succ n ih =>
    cases start with
    | none =>
      cases h
      simp
    | some a =>
      rw [walkUp] at h
      obtain ⟨rest, hrest, rfl⟩ := Option.map_eq_some_iff.mp h
      refine List.forall_mem_cons.mpr ⟨hstart a rfl, ih hrest fun b hb => ?_⟩
      obtain ⟨k, -, hk⟩ := Option.bind_eq_some_iff.mp hb
      exact hxs k b hk

/-- **The fuel is no limit**: with as much of it as there are entries, the walk returns
exactly if the loop ends. -/
theorem walkUp_isSome_iff {xs : List α} (hxs : ∀ k a, get k = some a → a ∈ xs) {n : Nat}
    {start : Option α} (hstart : ∀ a, start = some a → a ∈ xs) (hn : xs.length ≤ n) :
    (walkUp get parent n start).isSome = true ↔ WalkEnds get parent start := by
  constructor
  · intro h
    obtain ⟨path, hpath⟩ := Option.isSome_iff_exists.mp h
    exact walkEnds_of_walkUp hpath
  · intro h
    obtain ⟨k, path, hpath⟩ := exists_walkUp h
    have hlength : path.length ≤ xs.length :=
      (List.subperm_of_subset (nodup_of_walkUp hpath) (mem_of_walkUp hpath hxs hstart)).length_le
    rw [walkUp_mono (walkUp_length hpath) (by omega)]
    rfl

/-! ## Cycles -/

theorem not_cycle_of_walkEnds {start : Option α} (h : WalkEnds get parent start) :
    ∀ a, start = some a → ¬Relation.TransGen (ParentOf get parent) a a := by
  induction h with
  | root => exact fun _ h => by cases h
  | @up a _ ih =>
    rintro _ ⟨⟩ hcycle
    -- the cycle goes through the next entry as well
    rcases (Relation.transGen_iff ..).mp hcycle with hself | ⟨b, hback, hlast⟩
    · exact ih a hself (.single hself)
    · obtain ⟨c, hc, hrest⟩ := Relation.TransGen.head'_iff.mp hcycle
      refine ih c hc ?_
      exact Relation.TransGen.tail' hrest hc

/-- Where links lead to finitely many entries and never back, every walk ends. -/
theorem walkEnds_of_acyclic {xs : List α} (hxs : ∀ k a, get k = some a → a ∈ xs)
    (h : AcyclicLinks get parent) (start : Option α) : WalkEnds get parent start := by
  let up : {a // a ∈ xs} → {a // a ∈ xs} → Prop := fun b a => ParentOf get parent a.1 b.1
  have hlift : ∀ a b : {a // a ∈ xs}, Relation.TransGen up b a →
      Relation.TransGen (ParentOf get parent) a.1 b.1 := by
    intro a b hba
    induction hba with
    | single hstep => exact .single hstep
    | tail _ hstep ih => exact .head hstep ih
  have hirrefl : Std.Irrefl (Relation.TransGen up) := ⟨fun a hcycle => h a.1 (hlift a a hcycle)⟩
  have hfinite : Finite {a // a ∈ xs} := xs.finite_toSet
  have hwf : WellFounded (Relation.TransGen up) := Finite.wellFounded_of_trans_of_irrefl _
  have hends : ∀ a : {a // a ∈ xs}, WalkEnds get parent (some a.1) := by
    intro a
    induction a using hwf.induction with
    | _ a ih =>
      refine .up ?_
      cases hnext : (parent a.1).bind get with
      | none => exact .root
      | some b =>
        obtain ⟨k, -, hk⟩ := Option.bind_eq_some_iff.mp hnext
        exact ih ⟨b, hxs k b hk⟩ (.single hnext)
  cases start with
  | none => exact .root
  | some a =>
    refine .up ?_
    cases hnext : (parent a).bind get with
    | none => exact .root
    | some b =>
      obtain ⟨k, -, hk⟩ := Option.bind_eq_some_iff.mp hnext
      exact hends ⟨b, hxs k b hk⟩

/-- **Walks end exactly where there is no cycle**, if every entry that a link names can
be walked from. -/
theorem walkEnds_iff_acyclic {xs : List α} (hxs : ∀ k a, get k = some a → a ∈ xs)
    {S : Option α → Prop} (hS : ∀ a b, ParentOf get parent a b → S (some b)) :
    (∀ start, S start → WalkEnds get parent start) ↔ AcyclicLinks get parent := by
  constructor
  · intro h a hcycle
    obtain ⟨b, -, hlast⟩ := Relation.TransGen.tail'_iff.mp hcycle
    exact not_cycle_of_walkEnds (h _ (hS b a hlast)) a rfl hcycle
  · exact fun h start _ => walkEnds_of_acyclic hxs h start

/-- A walk that also stops elsewhere ends where the walk does. -/
theorem WalkEnds.stopping {parent' : α → Option κ} {start : Option α}
    (h : WalkEnds get parent start) (hstop : ∀ a, parent' a = parent a ∨ parent' a = none) :
    WalkEnds get parent' start := by
  induction h with
  | root => exact .root
  | @up a _ ih =>
    refine .up ?_
    rcases hstop a with hsame | hnone
    · rwa [hsame]
    · rw [hnone]
      exact .root

end ParentCycles

end PiMono
