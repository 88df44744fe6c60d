import Mathlib.Data.List.Basic
import Mathlib.Data.List.Nodup
import PiMono.Lib.JsMap

/-!
# Walking from an entry to its root

Entries with a key and the key of a parent form a forest. `walkUp` is the loop
that follows parents through an index; it runs out of fuel only where the loop
would never end. `IsPath` is what the loop returns, root first. Where every
parent stands earlier in a list (`ParentsEarlier`), every walk ends and its path
is in the order of the list (`exists_path`).
-/

namespace PiMono

section ParentWalk

variable {κ α : Type}

/-- The entries from `a` up to its root, nearest first. `none` where the links
form a cycle and the loop does not end: no walk through `n` entries takes more
than `n` steps. -/
def walkUp (get : κ → Option α) (parent : α → Option κ) : Nat → Option α → Option (List α)
  | _, none => some []
  | 0, some _ => none
  | n + 1, some a => (walkUp get parent n ((parent a).bind get)).map (a :: ·)

/-- Two walks are the same where each entry has the same next one. -/
theorem walkUp_congr {κ' : Type} {get : κ → Option α} {get' : κ' → Option α}
    {parent : α → Option κ} {parent' : α → Option κ'} {S : α → Prop}
    (hnext : ∀ a, S a → (parent a).bind get = (parent' a).bind get')
    (hup : ∀ a b, S a → (parent a).bind get = some b → S b) : ∀ (n : Nat) (start : Option α),
    (∀ a, start = some a → S a) → walkUp get parent n start = walkUp get' parent' n start
  | _, none, _ => by rw [walkUp, walkUp]
  | 0, some _, _ => rfl
  | n + 1, some a, hstart => by
    have ha := hstart a rfl
    rw [walkUp, walkUp, ← hnext a ha,
      walkUp_congr hnext hup n _ fun b hb => hup a b ha hb]

/-- A path, root first, whose root hangs below `above`. -/
def IsPath (key : α → κ) (parent : α → Option κ) : Option κ → List α → Prop
  | _, [] => True
  | above, a :: as => parent a = above ∧ IsPath key parent (some (key a)) as

/-- Every parent stands earlier in the list. -/
def ParentsEarlier (key : α → κ) (parent : α → Option κ) (xs : List α) : Prop :=
  ∀ pre a post, xs = pre ++ a :: post → ∀ p, parent a = some p → p ∈ pre.map key

variable {key : α → κ} {parent : α → Option κ}

theorem parentsEarlier_nil : ParentsEarlier key parent [] := by
  intro pre a post h
  simp at h

theorem parentsEarlier_snoc {xs : List α} {a : α} :
    ParentsEarlier key parent (xs ++ [a]) ↔
      ParentsEarlier key parent xs ∧ ∀ p, parent a = some p → p ∈ xs.map key := by
  constructor
  · intro h
    refine ⟨fun pre b post hxs p hp => ?_, h xs a [] rfl⟩
    exact h pre b (post ++ [a]) (by rw [hxs, List.append_assoc, List.cons_append]) p hp
  · rintro ⟨h, ha⟩ pre b post hxs p hp
    rcases List.eq_nil_or_concat post with rfl | ⟨post', c, rfl⟩
    · obtain ⟨rfl, hb⟩ := List.append_inj' hxs rfl
      rw [List.cons.inj hb |>.1] at ha
      exact ha p hp
    · rw [List.concat_eq_append, ← List.cons_append, ← List.append_assoc] at hxs
      obtain ⟨rfl, -⟩ := List.append_inj' hxs rfl
      exact h pre b post' rfl p hp

theorem isPath_append : ∀ {above : Option κ} {as bs : List α},
    IsPath key parent above (as ++ bs) ↔ IsPath key parent above as ∧
      IsPath key parent ((as.getLast?.map key).or above) bs
  | above, [], bs => by simp [IsPath]
  | above, a :: as, bs => by
    rw [List.cons_append, IsPath, IsPath, isPath_append, and_assoc]
    cases as with
    | nil => simp
    | cons b bs => simp [List.getLast?_cons]

theorem isPath_snoc {above : Option κ} {as : List α} {b : α} :
    IsPath key parent above (as ++ [b]) ↔ IsPath key parent above as ∧
      parent b = (as.getLast?.map key).or above := by
  rw [isPath_append]
  simp [IsPath]

theorem isPath_congr {parent' : α → Option κ} : ∀ {above : Option κ} {as : List α},
    (∀ a ∈ as, parent a = parent' a) → IsPath key parent above as → IsPath key parent' above as
  | _, [], _, _ => trivial
  | _, a :: as, h, hpath => by
    obtain ⟨ha, has⟩ := List.forall_mem_cons.mp h
    exact ⟨ha ▸ hpath.1, isPath_congr has hpath.2⟩

theorem isPath_map {f : α → α} (hkey : ∀ a, key (f a) = key a)
    (hparent : ∀ a, parent (f a) = parent a) : ∀ {above : Option κ} {as : List α},
    IsPath key parent above (as.map f) ↔ IsPath key parent above as
  | _, [] => Iff.rfl
  | above, a :: as => by
    rw [List.map_cons, IsPath, IsPath, hkey, hparent, isPath_map hkey hparent]

/-- On a path every parent stands earlier. -/
theorem IsPath.parentsEarlier {path : List α} (h : IsPath key parent none path) :
    ParentsEarlier key parent path := by
  rintro pre a post rfl p hp
  obtain ⟨-, ha, -⟩ := isPath_append.mp h
  rw [Option.or_none] at ha
  rw [ha] at hp
  obtain ⟨b, hb, rfl⟩ := Option.map_eq_some_iff.mp hp
  exact List.mem_map_of_mem (List.mem_of_getLast? hb)

/-- The walk from the end of a path through an index that knows its entries
returns the path. -/
theorem walkUp_path {get : κ → Option α} {path : List α} {a : α}
    (hpath : IsPath key parent none (path ++ [a])) (hget : ∀ b ∈ path, get (key b) = some b)
    {n : Nat} (hn : path.length ≤ n) :
    walkUp get parent (n + 1) (some a) = some (a :: path.reverse) := by
  induction path using List.reverseRecOn generalizing a n with
  | nil =>
    have hroot : parent a = none := hpath.1
    rw [walkUp, hroot, Option.bind_none]
    cases n <;> rfl
  | append_singleton path b ih =>
    obtain ⟨hpath', hparent⟩ := isPath_snoc.mp hpath
    have hb : (parent a).bind get = some b := by
      rw [hparent]
      simp [hget b (by simp)]
    obtain ⟨m, rfl⟩ : ∃ m, n = m + 1 := ⟨n - 1, by simp at hn; omega⟩
    rw [walkUp, hb, ih hpath' (fun c hc => hget c (by simp [hc])) (by simp at hn; omega)]
    simp

/-- Where parents stand earlier, the walk from an entry ends, and its path is
made of earlier entries, in their order. -/
theorem exists_path {get : κ → Option α} {xs : List α} (hpe : ParentsEarlier key parent xs)
    (hget : ∀ b ∈ xs, get (key b) = some b) : ∀ (n : Nat) (pre : List α) (a : α) (post : List α),
    xs = pre ++ a :: post → pre.length ≤ n →
    ∃ path, path.Sublist pre ∧ IsPath key parent none (path ++ [a]) ∧
      walkUp get parent (n + 1) (some a) = some (a :: path.reverse) := by
  intro n
  induction n with
  | zero =>
    intro pre a post hxs hn
    obtain rfl := List.length_eq_zero_iff.mp (Nat.le_zero.mp hn)
    have hroot : parent a = none := by
      cases hp : parent a with
      | none => rfl
      | some p =>
        have := hpe [] a post hxs p hp
        simp at this
    exact ⟨[], List.Sublist.refl _, by simp [IsPath, hroot], by simp [walkUp, hroot]⟩
  | succ n ih =>
    intro pre a post hxs hn
    cases hp : parent a with
    | none => exact ⟨[], List.nil_sublist _, by simp [IsPath, hp], by simp [walkUp, hp]⟩
    | some p =>
      obtain ⟨b, hb, rfl⟩ := List.mem_map.mp (hpe pre a post hxs p hp)
      obtain ⟨pre', post', hpre⟩ := List.append_of_mem hb
      have hxs' : xs = pre' ++ b :: (post' ++ a :: post) := by
        rw [hxs, hpre, List.append_assoc, List.cons_append]
      obtain ⟨path, hsub, hpath, hwalk⟩ := ih pre' b _ hxs' (by
        rw [hpre, List.length_append, List.length_cons] at hn
        omega)
      refine ⟨path ++ [b], ?_, isPath_snoc.mpr ⟨hpath, by simp [hp]⟩, ?_⟩
      · rw [hpre]
        exact hsub.append (List.singleton_sublist.mpr List.mem_cons_self)
      · rw [walkUp, hp, Option.bind_some, hget b (by rw [hxs']; simp), hwalk]
        simp

/-- The walk from an entry of a list where parents stand earlier. -/
theorem walkUp_of_mem [DecidableEq κ] {xs : List α} (hnd : (xs.map key).Nodup)
    (hpe : ParentsEarlier key parent xs) {a : α} (ha : a ∈ xs) :
    ∃ path, (path ++ [a]).Sublist xs ∧ IsPath key parent none (path ++ [a]) ∧
      ∀ n, xs.length ≤ n →
        walkUp (JsMap.index key xs).get? parent n (some a) = some (path ++ [a]).reverse := by
  obtain ⟨pre, post, hxs⟩ := List.append_of_mem ha
  have hget : ∀ b ∈ xs, (JsMap.index key xs).get? (key b) = some b :=
    fun b hb => JsMap.get?_index_of_mem hnd hb
  obtain ⟨path, hsub, hpath, -⟩ := exists_path hpe hget pre.length pre a post hxs (Nat.le_refl _)
  have hmem : (path ++ [a]).Sublist xs := by
    rw [hxs]
    exact hsub.append (List.singleton_sublist.mpr List.mem_cons_self)
  refine ⟨path, hmem, hpath, fun n hn => ?_⟩
  have hlen : path.length + 1 ≤ xs.length := by simpa using hmem.length_le
  obtain ⟨m, rfl⟩ : ∃ m, n = m + 1 := ⟨n - 1, by omega⟩
  rw [walkUp_path hpath (fun b hb => hget b (hmem.subset (List.mem_append_left _ hb))) (by omega),
    List.reverse_append]
  rfl

/-- Entries with distinct keys have one path each. -/
theorem isPath_unique {xs : List α} (hnd : (xs.map key).Nodup) {p q : List α} {a : α}
    (hp : IsPath key parent none (p ++ [a])) (hq : IsPath key parent none (q ++ [a]))
    (hpxs : ∀ b ∈ p, b ∈ xs) (hqxs : ∀ b ∈ q, b ∈ xs) : p = q := by
  have hinj : ∀ b ∈ xs, ∀ c ∈ xs, key b = key c → b = c :=
    fun b hb c hc h => List.inj_on_of_nodup_map hnd hb hc h
  induction p using List.reverseRecOn generalizing q a with
  | nil =>
    rcases List.eq_nil_or_concat q with rfl | ⟨q, c, rfl⟩
    · rfl
    · rw [List.concat_eq_append] at hq
      have h1 : parent a = none := (isPath_snoc.mp hp).2
      have h2 : parent a = some (key c) := by simpa using (isPath_snoc.mp hq).2
      rw [h1] at h2
      cases h2
  | append_singleton p b ih =>
    rcases List.eq_nil_or_concat q with rfl | ⟨q, c, rfl⟩
    · have h1 : parent a = none := (isPath_snoc.mp hq).2
      have h2 : parent a = some (key b) := by simpa using (isPath_snoc.mp hp).2
      rw [h1] at h2
      cases h2
    · rw [List.concat_eq_append] at hq hqxs ⊢
      have h1 : parent a = some (key b) := by simpa using (isPath_snoc.mp hp).2
      have h2 : parent a = some (key c) := by simpa using (isPath_snoc.mp hq).2
      have hbc : b = c := hinj b (hpxs b (by simp)) c (hqxs c (by simp))
        (Option.some.inj (h1.symm.trans h2))
      subst hbc
      rw [ih (isPath_snoc.mp hp).1 (isPath_snoc.mp hq).1 (fun x hx => hpxs x (by simp [hx]))
        (fun x hx => hqxs x (by simp [hx]))]

end ParentWalk

end PiMono
