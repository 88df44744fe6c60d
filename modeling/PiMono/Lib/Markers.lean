import Mathlib.Algebra.Order.Ring.Nat
import Mathlib.Data.List.Basic
import Mathlib.Data.List.Induction
import Mathlib.Data.List.TakeWhile
import Mathlib.Tactic.Common

/-!
# Replacing bracketed words

A word is a text between an opening and a closing unit, which occur nowhere else in it, so
two words of a text never overlap. `pieces` reads a text from left to right, `replaced`
puts what `subst` says in the place of every word. Replacing the words of two kinds one
kind after the other is replacing them at once exactly as long as the replacements of the
first kind make no word of the second (`replaced_replaced`).
-/

namespace PiMono.Markers

/-- A word: an opening unit, a closing unit, and neither between them. -/
def BracketWord {α : Type} (opening closing : α) (word : List α) : Prop :=
  ∃ body, word = opening :: body ++ [closing] ∧ opening ∉ body ∧ closing ∉ opening :: body

/-- A stretch of a text, with what is put in its place. -/
structure Piece (α : Type) where
  text : List α
  replacement? : Option (List α)
  deriving DecidableEq

namespace Piece

variable {α : Type}

/-- What a piece reads after the replacement. -/
def replaced (p : Piece α) : List α := p.replacement?.getD p.text

/-- A unit that no word begins at. -/
def unit (a : α) : Piece α := ⟨[a], none⟩

end Piece

section Pieces

variable {α : Type} [DecidableEq α] (closing : α) (subst : List α → Option (List α))

/-- The text up to the first closing unit. -/
def upToClosing : List α → Option (List α)
  | [] => none
  | a :: rest => if a = closing then some [a] else (upToClosing rest).map (a :: ·)

/-- The pieces of a text, behind `skip` units of the word read last. -/
def piecesFrom : Nat → List α → List (Piece α)
  | _, [] => []
  | skip + 1, _ :: rest => piecesFrom skip rest
  | 0, a :: rest =>
    match (upToClosing closing (a :: rest)).bind fun word =>
      (subst word).map fun replacement => (⟨word, some replacement⟩ : Piece α) with
    | some piece => piece :: piecesFrom (piece.text.length - 1) rest
    | none => .unit a :: piecesFrom 0 rest

/-- The pieces of a text. -/
def pieces (text : List α) : List (Piece α) := piecesFrom closing subst 0 text

/-- The text with every word that has one replaced by its replacement. -/
def replaced (text : List α) : List α := (pieces closing subst text).flatMap Piece.replaced

/-- How many words are replaced. -/
def wordCount (text : List α) : Nat :=
  (pieces closing subst text).countP (·.replacement?.isSome)

end Pieces

section Words

variable {α : Type} [DecidableEq α] {opening closing : α} {subst : List α → Option (List α)}

theorem upToClosing_append {body : List α} (h : closing ∉ body) (rest : List α) :
    upToClosing closing (body ++ closing :: rest) = some (body ++ [closing]) := by
  induction body with
  | nil => simp [upToClosing]
  | cons a body ih =>
    rw [List.mem_cons, not_or] at h
    obtain ⟨ha, hbody⟩ := h
    rw [List.cons_append, upToClosing, if_neg (Ne.symm ha), ih hbody]
    rfl

theorem upToClosing_prefix {text word : List α} (h : upToClosing closing text = some word) :
    word ≠ [] ∧ word <+: text := by
  induction text generalizing word with
  | nil => simp [upToClosing] at h
  | cons a rest ih =>
    rw [upToClosing] at h
    split at h
    · obtain rfl := Option.some.inj h
      exact ⟨List.cons_ne_nil _ _, List.prefix_append [a] rest⟩
    · obtain ⟨word', hword', rfl⟩ := Option.map_eq_some_iff.mp h
      exact ⟨List.cons_ne_nil _ _, List.cons_prefix_cons.mpr ⟨rfl, (ih hword').2⟩⟩

theorem BracketWord.upToClosing {word : List α} (h : BracketWord opening closing word)
    (rest : List α) : upToClosing closing (word ++ rest) = some word := by
  obtain ⟨body, rfl, -, hclosing⟩ := h
  have h := upToClosing_append hclosing rest
  simpa using h

/-- The pieces make the text up. -/
theorem piecesFrom_text (skip : Nat) (text : List α) :
    (piecesFrom closing subst skip text).flatMap Piece.text = text.drop skip := by
  induction text generalizing skip with
  | nil => cases skip <;> rfl
  | cons a rest ih =>
    cases skip with
    | succ skip => exact ih skip
    | zero =>
      rw [piecesFrom]
      cases hword : (upToClosing closing (a :: rest)).bind fun word =>
          (subst word).map fun replacement => (⟨word, some replacement⟩ : Piece α) with
      | none => rw [List.flatMap_cons, ih]; rfl
      | some piece =>
        obtain ⟨word, hup, hpiece⟩ := Option.bind_eq_some_iff.mp hword
        obtain ⟨replacement, -, rfl⟩ := Option.map_eq_some_iff.mp hpiece
        obtain ⟨hne, behind, hbehind⟩ := upToClosing_prefix hup
        obtain ⟨b, body, rfl⟩ := List.exists_cons_of_ne_nil hne
        obtain ⟨rfl, rfl⟩ := List.cons.inj hbehind
        rw [List.flatMap_cons, ih]
        show (b :: body) ++ (body ++ behind).drop body.length = b :: (body ++ behind)
        rw [List.drop_left, List.cons_append]

theorem piecesFrom_skip (word rest : List α) :
    piecesFrom closing subst word.length (word ++ rest) = pieces closing subst rest := by
  induction word with
  | nil => rfl
  | cons a word ih => exact ih

theorem pieces_word {word replacement : List α} (hword : BracketWord opening closing word)
    (h : subst word = some replacement) (rest : List α) :
    pieces closing subst (word ++ rest)
      = ⟨word, some replacement⟩ :: pieces closing subst rest := by
  have hup := hword.upToClosing rest
  obtain ⟨body, rfl, -, -⟩ := hword
  rw [pieces, List.append_assoc, List.cons_append]
  rw [List.append_assoc, List.cons_append] at hup
  simp only [piecesFrom, hup, Option.bind_some, h, Option.map_some, List.cons.injEq, true_and]
  have hskip := @piecesFrom_skip α _ closing subst (body ++ [closing]) rest
  simpa using hskip

/-- No word that is replaced begins at the front. -/
def NoWordAt (closing : α) (subst : List α → Option (List α)) (text : List α) : Prop :=
  (upToClosing closing text).bind subst = none

theorem pieces_unit {a : α} {rest : List α} (h : NoWordAt closing subst (a :: rest)) :
    pieces closing subst (a :: rest) = .unit a :: pieces closing subst rest := by
  have hnone : ((upToClosing closing (a :: rest)).bind fun word =>
      (subst word).map fun replacement => (⟨word, some replacement⟩ : Piece α)) = none := by
    rw [NoWordAt, Option.bind_eq_none_iff] at h
    rw [Option.bind_eq_none_iff]
    intro word hword
    rw [h word hword]
    rfl
  rw [pieces, piecesFrom, hnone]
  rfl

/-- A text begins with a word that is replaced, or with a unit that none begins at. -/
theorem word_or_unit (a : α) (rest : List α) :
    NoWordAt closing subst (a :: rest) ∨ ∃ word behind replacement,
      a :: rest = word ++ behind ∧ word ≠ [] ∧ subst word = some replacement := by
  cases h : (upToClosing closing (a :: rest)).bind subst with
  | none => exact Or.inl h
  | some replacement =>
    obtain ⟨word, hword, hsubst⟩ := Option.bind_eq_some_iff.mp h
    obtain ⟨hne, behind, heq⟩ := upToClosing_prefix hword
    exact Or.inr ⟨word, behind, replacement, heq.symm, hne, hsubst⟩

/-- An induction over the words and the units of a text. -/
theorem word_induction {P : List α → Prop} (nil : P [])
    (word : ∀ w rest replacement, w ≠ [] → subst w = some replacement → P rest → P (w ++ rest))
    (unit : ∀ a rest, NoWordAt closing subst (a :: rest) → P rest → P (a :: rest))
    (text : List α) : P text := by
  induction hn : text.length using Nat.strong_induction_on generalizing text with
  | _ n ih =>
    cases text with
    | nil => exact nil
    | cons a rest =>
      rcases @word_or_unit α _ closing subst a rest with hnone | ⟨w, behind, r, heq, hne, hw⟩
      · exact unit a rest hnone (ih rest.length (by rw [← hn]; simp) rest rfl)
      · rw [heq]
        have hpos := List.length_pos_of_ne_nil hne
        refine word w behind r hne hw (ih behind.length ?_ behind rfl)
        rw [← hn, heq, List.length_append]
        omega

/-! ## Two kinds of words -/

/-- Every word of the kind is bracketed. -/
def Bracketed (opening closing : α) (subst : List α → Option (List α)) : Prop :=
  ∀ word, subst word ≠ none → BracketWord opening closing word

/-- No word begins at a unit that does not open one. -/
theorem noWordAt_of_ne (h : Bracketed opening closing subst) {a : α} (ha : a ≠ opening)
    (rest : List α) : NoWordAt closing subst (a :: rest) := by
  rw [NoWordAt, Option.bind_eq_none_iff]
  intro word hword
  by_contra hsome
  obtain ⟨body, rfl, -, -⟩ := h word hsome
  obtain ⟨-, behind, heq⟩ := upToClosing_prefix hword
  rw [List.append_assoc, List.cons_append] at heq
  exact ha (List.cons.inj heq).1.symm

theorem pieces_append_of_notMem (h : Bracketed opening closing subst) {before : List α}
    (hbefore : opening ∉ before) (rest : List α) :
    pieces closing subst (before ++ rest)
      = before.map Piece.unit ++ pieces closing subst rest := by
  induction before with
  | nil => rfl
  | cons a before ih =>
    rw [List.mem_cons, not_or] at hbefore
    rw [List.cons_append, pieces_unit (noWordAt_of_ne h (Ne.symm hbefore.1) _), ih hbefore.2]
    rfl

/-- A word of another kind is a run of units. -/
theorem pieces_otherWord (h : Bracketed opening closing subst) {word : List α}
    (hword : BracketWord opening closing word) (hother : subst word = none) (rest : List α) :
    pieces closing subst (word ++ rest) = word.map Piece.unit ++ pieces closing subst rest := by
  have hup := hword.upToClosing rest
  obtain ⟨body, rfl, hopening, hclosing⟩ := hword
  have hne : opening ≠ closing := fun heq => hclosing (heq ▸ List.mem_cons_self)
  have hnone : NoWordAt closing subst (opening :: (body ++ [closing] ++ rest)) := by
    rw [NoWordAt]
    rw [List.cons_append, List.cons_append] at hup
    rw [hup]
    exact hother
  rw [List.cons_append, List.cons_append, pieces_unit hnone,
    pieces_append_of_notMem h (by simp [hopening, hne])]
  rfl

omit [DecidableEq α] in
theorem countP_unit (text : List α) :
    (text.map Piece.unit).countP (·.replacement?.isSome) = 0 := by
  rw [List.countP_eq_zero]
  intro piece hpiece
  obtain ⟨a, -, rfl⟩ := List.mem_map.mp hpiece
  exact Bool.false_ne_true

omit [DecidableEq α] in
theorem flatMap_unit (text : List α) : (text.map Piece.unit).flatMap Piece.replaced = text := by
  induction text with
  | nil => rfl
  | cons a text ih =>
    rw [List.map_cons, List.flatMap_cons, ih]
    rfl

/-- A unit in front of a text takes no word away, and where it makes none it stays. -/
theorem wordCount_cons (h : Bracketed opening closing subst) (a : α) (rest : List α) :
    wordCount closing subst rest ≤ wordCount closing subst (a :: rest) ∧
      (wordCount closing subst (a :: rest) = wordCount closing subst rest →
        replaced closing subst (a :: rest) = a :: replaced closing subst rest) := by
  rcases @word_or_unit α _ closing subst a rest with hnone | ⟨word, behind, r, heq, -, hsubst⟩
  · rw [wordCount, wordCount, replaced, replaced, pieces_unit hnone]
    simp [Piece.unit, Piece.replaced]
  · -- the word that begins here is one more: none begins in the rest of it
    have hword := h word (by rw [hsubst]; exact Option.some_ne_none r)
    have hcount : wordCount closing subst (a :: rest)
        = wordCount closing subst behind + 1 := by
      rw [heq, wordCount, wordCount, pieces_word hword hsubst]
      simp
    obtain ⟨body, rfl, hopening, hclosing⟩ := hword
    have hne : opening ≠ closing := fun heq => hclosing (heq ▸ List.mem_cons_self)
    obtain ⟨-, rfl⟩ := List.cons.inj heq
    have hrest : wordCount closing subst (body.append [closing] ++ behind)
        = wordCount closing subst behind := by
      show wordCount closing subst (body ++ [closing] ++ behind) = _
      rw [wordCount, pieces_append_of_notMem h (by simp [hopening, hne]), List.countP_append,
        countP_unit, Nat.zero_add]
      rfl
    have hrest' : wordCount closing subst ((body.append [closing]).append behind)
        = wordCount closing subst behind := hrest
    constructor
    · rw [hcount]
      exact (Nat.le_of_eq hrest').trans (Nat.le_succ _)
    · intro hsame
      rw [hcount] at hsame
      exact absurd (hsame.trans hrest') (Nat.succ_ne_self _)

/-- The same for a whole text in front. -/
theorem wordCount_append (h : Bracketed opening closing subst) (before rest : List α) :
    wordCount closing subst rest ≤ wordCount closing subst (before ++ rest) ∧
      (wordCount closing subst (before ++ rest) = wordCount closing subst rest →
        replaced closing subst (before ++ rest) = before ++ replaced closing subst rest) := by
  induction before with
  | nil => exact ⟨Nat.le_refl _, fun _ => rfl⟩
  | cons a before ih =>
    obtain ⟨hle, hsame⟩ := wordCount_cons h a (before ++ rest)
    refine ⟨ih.1.trans hle, fun heq => ?_⟩
    have hbefore : wordCount closing subst (before ++ rest) = wordCount closing subst rest :=
      Nat.le_antisymm (hle.trans_eq heq) ih.1
    rw [List.cons_append, hsame (heq.trans hbefore.symm), ih.2 hbefore]
    rfl

end Words

section Kinds

variable {α : Type} [DecidableEq α] {opening closing : α} {first second : List α → Option (List α)}
  (hfirst : Bracketed opening closing first) (hsecond : Bracketed opening closing second)

/-- The words of both kinds. -/
def either (first second : List α → Option (List α)) (word : List α) : Option (List α) :=
  (first word).or (second word)

theorem NoWordAt.either_left {text : List α} (h : NoWordAt closing (either first second) text) :
    NoWordAt closing first text ∧ NoWordAt closing second text := by
  simp only [NoWordAt, Option.bind_eq_none_iff, either, Option.or_eq_none_iff] at h ⊢
  exact ⟨fun word hword => (h word hword).1, fun word hword => (h word hword).2⟩

include hfirst hsecond in
omit [DecidableEq α] in
theorem bracketed_either : Bracketed opening closing (either first second) := by
  intro word hword
  by_cases h : first word = none
  · refine hsecond word fun hnone => hword ?_
    rw [either, h, hnone]
    rfl
  · exact hfirst word h

/-- What both kinds and each of them make of a text that begins with a word. -/
theorem replaced_word {subst : List α → Option (List α)} {word replacement : List α}
    (h : Bracketed opening closing subst) (hsubst : subst word = some replacement)
    (rest : List α) : replaced closing subst (word ++ rest)
      = replacement ++ replaced closing subst rest := by
  have hword := h word (by rw [hsubst]; exact Option.some_ne_none _)
  rw [replaced, pieces_word hword hsubst]
  rfl

theorem replaced_otherWord {subst : List α → Option (List α)} {word : List α}
    (h : Bracketed opening closing subst) (hword : BracketWord opening closing word)
    (hsubst : subst word = none) (rest : List α) : replaced closing subst (word ++ rest)
      = word ++ replaced closing subst rest := by
  rw [replaced, pieces_otherWord h hword hsubst, List.flatMap_append, flatMap_unit]
  rfl

theorem replaced_unit {subst : List α → Option (List α)} {a : α} {rest : List α}
    (h : NoWordAt closing subst (a :: rest)) :
    replaced closing subst (a :: rest) = a :: replaced closing subst rest := by
  rw [replaced, pieces_unit h]
  rfl

theorem wordCount_word {subst : List α → Option (List α)} {word replacement : List α}
    (h : Bracketed opening closing subst) (hsubst : subst word = some replacement)
    (rest : List α) : wordCount closing subst (word ++ rest)
      = wordCount closing subst rest + 1 := by
  have hword := h word (by rw [hsubst]; exact Option.some_ne_none _)
  rw [wordCount, pieces_word hword hsubst, List.countP_cons]
  rfl

theorem wordCount_otherWord {subst : List α → Option (List α)} {word : List α}
    (h : Bracketed opening closing subst) (hword : BracketWord opening closing word)
    (hsubst : subst word = none) (rest : List α) :
    wordCount closing subst (word ++ rest) = wordCount closing subst rest := by
  rw [wordCount, pieces_otherWord h hword hsubst, List.countP_append, countP_unit, Nat.zero_add]
  rfl

theorem wordCount_unit {subst : List α → Option (List α)} {a : α} {rest : List α}
    (h : NoWordAt closing subst (a :: rest)) :
    wordCount closing subst (a :: rest) = wordCount closing subst rest := by
  rw [wordCount, pieces_unit h, List.countP_cons]
  rfl

include hfirst hsecond in
/-- **One kind after the other.** The words of the second kind outlast the replacement of
the first, and where no more come in, both are replaced at once. -/
theorem replaced_replaced (hdisjoint : ∀ word, first word ≠ none → second word = none)
    (text : List α) :
    wordCount closing second text ≤ wordCount closing second (replaced closing first text) ∧
      (wordCount closing second (replaced closing first text) = wordCount closing second text →
        replaced closing second (replaced closing first text)
          = replaced closing (either first second) text) := by
  have heither := bracketed_either hfirst hsecond
  induction text using @word_induction α _ closing (either first second) with
  | nil => exact ⟨Nat.le_refl _, fun _ => rfl⟩
  | word word rest replacement _ hword ih =>
    have hbracket := heither word (by rw [hword]; exact Option.some_ne_none _)
    cases hfst : first word with
    | some content =>
      -- a word of the first kind: what stands for it may make words of the second
      have hsnd : second word = none := hdisjoint word (by rw [hfst]; exact Option.some_ne_none _)
      obtain rfl : content = replacement := by simpa [either, hfst] using hword
      obtain ⟨hle, hsame⟩ := wordCount_append hsecond content (replaced closing first rest)
      rw [replaced_word hfirst hfst, replaced_word heither hword,
        wordCount_otherWord hsecond hbracket hsnd]
      refine ⟨ih.1.trans hle, fun heq => ?_⟩
      have hrest : wordCount closing second (replaced closing first rest)
          = wordCount closing second rest := Nat.le_antisymm (hle.trans_eq heq) ih.1
      rw [hsame (heq.trans hrest.symm), ih.2 hrest]
    | none =>
      -- a word of the second kind, which the first leaves as it is
      have hsnd : second word = some replacement := by simpa [either, hfst] using hword
      rw [replaced_otherWord hfirst hbracket hfst, replaced_word heither hword,
        wordCount_word hsecond hsnd, wordCount_word hsecond hsnd, replaced_word hsecond hsnd]
      refine ⟨Nat.succ_le_succ ih.1, fun heq => ?_⟩
      rw [ih.2 (Nat.succ.inj heq)]
  | unit a rest hnone ih =>
    obtain ⟨hfst, hsnd⟩ := hnone.either_left
    obtain ⟨hle, hsame⟩ := wordCount_cons hsecond a (replaced closing first rest)
    rw [replaced_unit hfst, replaced_unit hnone, wordCount_unit hsnd]
    refine ⟨ih.1.trans hle, fun heq => ?_⟩
    have hrest : wordCount closing second (replaced closing first rest)
        = wordCount closing second rest := Nat.le_antisymm (hle.trans_eq heq) ih.1
    rw [hsame (heq.trans hrest.symm), ih.2 hrest]

/-! ## What words weigh -/

/-- The weight of a text whose units weigh something. -/
def weigh (weight : α → Nat) (text : List α) : Nat := (text.map weight).sum

omit [DecidableEq α] in
theorem weigh_append (weight : α → Nat) (before behind : List α) :
    weigh weight (before ++ behind) = weigh weight before + weigh weight behind := by
  simp [weigh]

include hfirst hsecond in
/-- Words without weight, each replaced by the same content: the weight of the result tells
how many they were. -/
theorem weigh_either (hdisjoint : ∀ word, first word ≠ none → second word = none)
    {weight : α → Nat} {content : List α}
    (hcontent : ∀ word replacement, second word = some replacement →
      replacement = content ∧ weigh weight word = 0) (text : List α) :
    weigh weight (replaced closing (either first second) text)
      = weigh weight (replaced closing first text)
        + wordCount closing second text * weigh weight content := by
  have heither := bracketed_either hfirst hsecond
  induction text using @word_induction α _ closing (either first second) with
  | nil => simp [replaced, pieces, piecesFrom, wordCount]
  | word word rest replacement _ hword ih =>
    have hbracket := heither word (by rw [hword]; exact Option.some_ne_none _)
    rw [replaced_word heither hword, weigh_append, ih]
    cases hfst : first word with
    | some content' =>
      have hsnd : second word = none := hdisjoint word (by rw [hfst]; exact Option.some_ne_none _)
      obtain rfl : content' = replacement := by simpa [either, hfst] using hword
      rw [replaced_word hfirst hfst, weigh_append, wordCount_otherWord hsecond hbracket hsnd]
      omega
    | none =>
      have hsnd : second word = some replacement := by simpa [either, hfst] using hword
      obtain ⟨rfl, hweight⟩ := hcontent word replacement hsnd
      rw [replaced_otherWord hfirst hbracket hfst, weigh_append, hweight,
        wordCount_word hsecond hsnd, Nat.succ_mul]
      omega
  | unit a rest hnone ih =>
    obtain ⟨hfst, hsnd⟩ := hnone.either_left
    have hcons (text : List α) : weigh weight (a :: text) = weight a + weigh weight text := by
      simp [weigh]
    rw [replaced_unit hnone, replaced_unit hfst, wordCount_unit hsnd, hcons, hcons, ih,
      Nat.add_assoc]

end Kinds

/-! ## Many kinds, one pass each -/

section Passes

variable {α : Type} [DecidableEq α] {opening closing : α}

/-- One pass for each kind, in their order. -/
def passes (closing : α) (kinds : List (List α → Option (List α))) (text : List α) : List α :=
  kinds.foldl (fun text subst => replaced closing subst text) text

/-- The words of all the kinds. -/
def anyOf (kinds : List (List α → Option (List α))) (word : List α) : Option (List α) :=
  kinds.findSome? (· word)

/-- No pass finds more words of its kind than the text has. -/
def OnlyOwnWords (closing : α) (kinds : List (List α → Option (List α))) (text : List α) : Prop :=
  ∀ before subst behind, kinds = before ++ subst :: behind →
    wordCount closing subst (replaced closing (anyOf before) text)
      = wordCount closing subst text

omit [DecidableEq α] in
theorem anyOf_concat (kinds : List (List α → Option (List α))) (subst : List α → Option (List α)) :
    anyOf (kinds ++ [subst]) = either (anyOf kinds) subst := by
  funext word
  rw [anyOf, List.findSome?_append, List.findSome?_cons]
  cases h : subst word <;> simp [anyOf, either, h]

theorem replaced_none (text : List α) : replaced closing (fun _ => none) text = text := by
  induction text with
  | nil => rfl
  | cons a text ih =>
    rw [replaced_unit, ih]
    rw [NoWordAt, Option.bind_eq_none_iff]
    exact fun _ _ => rfl

theorem replaced_anyOf_nil (text : List α) : replaced closing (anyOf []) text = text :=
  replaced_none text

/-- Kinds of bracketed words that share none. -/
structure Kinds (opening closing : α) (kinds : List (List α → Option (List α))) : Prop where
  bracketed : ∀ subst ∈ kinds, Bracketed opening closing subst
  disjoint : kinds.Pairwise fun first second => ∀ word, first word ≠ none → second word = none

omit [DecidableEq α] in
theorem Kinds.concat {kinds : List (List α → Option (List α))} {subst : List α → Option (List α)}
    (h : Kinds opening closing (kinds ++ [subst])) :
    Kinds opening closing kinds ∧ Bracketed opening closing subst ∧
      Bracketed opening closing (anyOf kinds) ∧
      ∀ word, anyOf kinds word ≠ none → subst word = none := by
  obtain ⟨hbracketed, hdisjoint⟩ := h
  obtain ⟨hkinds, -, hlast⟩ := List.pairwise_append.mp hdisjoint
  have hfound (word : List α) (hword : anyOf kinds word ≠ none) :
      ∃ kind ∈ kinds, kind word ≠ none := by
    by_contra hnone
    refine hword (List.findSome?_eq_none_iff.mpr fun kind hkind => ?_)
    by_contra hsome
    exact hnone ⟨kind, hkind, hsome⟩
  refine ⟨⟨fun kind hkind => hbracketed kind (List.mem_append_left _ hkind), hkinds⟩,
    hbracketed subst (by simp), fun word hword => ?_, fun word hword => ?_⟩
  · obtain ⟨kind, hkind, hsome⟩ := hfound word hword
    exact hbracketed kind (List.mem_append_left _ hkind) word hsome
  · obtain ⟨kind, hkind, hsome⟩ := hfound word hword
    exact hlast kind hkind subst List.mem_cons_self word hsome

omit [DecidableEq α] in
/-- A place of the kinds with one more is a place of the kinds, or the last. -/
theorem onlyOwnWords_concat [DecidableEq α] {kinds : List (List α → Option (List α))}
    {subst : List α → Option (List α)} {text : List α} :
    OnlyOwnWords closing (kinds ++ [subst]) text
      ↔ OnlyOwnWords closing kinds text ∧
        wordCount closing subst (replaced closing (anyOf kinds) text)
          = wordCount closing subst text := by
  constructor
  · intro h
    refine ⟨fun before kind behind heq => ?_, h kinds subst [] rfl⟩
    exact h before kind (behind ++ [subst]) (by rw [heq]; simp)
  · rintro ⟨hkinds, hlast⟩ before kind behind heq
    rcases List.eq_nil_or_concat behind with rfl | ⟨behind, other, rfl⟩
    · obtain ⟨rfl, hsubst⟩ := List.append_inj' heq rfl
      obtain rfl : subst = kind := by simpa using hsubst
      exact hlast
    · have heq' : kinds ++ [subst] = (before ++ kind :: behind) ++ [other] := by
        rw [heq]
        simp
      obtain ⟨rfl, -⟩ := List.append_inj' heq' rfl
      exact hkinds before kind behind rfl

/-- **Passes and one replacement at once.** They agree as long as no pass meets a word that
the text does not have. -/
theorem passes_eq {kinds : List (List α → Option (List α))} (hkinds : Kinds opening closing kinds)
    {text : List α} (h : OnlyOwnWords closing kinds text) :
    passes closing kinds text = replaced closing (anyOf kinds) text := by
  induction kinds using List.reverseRecOn with
  | nil => exact (replaced_anyOf_nil text).symm
  | append_singleton kinds subst ih =>
    obtain ⟨hbefore, hsubst, hany, hdisjoint⟩ := hkinds.concat
    obtain ⟨hown, hlast⟩ := onlyOwnWords_concat.mp h
    rw [passes, List.foldl_append, List.foldl_cons, List.foldl_nil, ← passes, ih hbefore hown,
      anyOf_concat]
    exact (replaced_replaced hany hsubst hdisjoint text).2 hlast

/-- The words of a kind outlast the passes of the others. -/
theorem wordCount_passes {kinds : List (List α → Option (List α))}
    {subst : List α → Option (List α)} (hkinds : Kinds opening closing (kinds ++ [subst]))
    (text : List α) :
    wordCount closing subst text ≤ wordCount closing subst (passes closing kinds text) := by
  obtain ⟨hbefore, hsubst, -, -⟩ := hkinds.concat
  have hdisjoint : ∀ kind ∈ kinds, ∀ word, kind word ≠ none → subst word = none :=
    fun kind hkind => (List.pairwise_append.mp hkinds.disjoint).2.2 kind hkind subst
      List.mem_cons_self
  induction kinds generalizing text with
  | nil => exact Nat.le_refl _
  | cons kind kinds ih =>
    have hkind := hbefore.bracketed kind List.mem_cons_self
    have hone := (replaced_replaced hkind hsubst (hdisjoint kind List.mem_cons_self) text).1
    have hlater : Kinds opening closing (kinds ++ [subst]) :=
      ⟨fun k hk => hkinds.bracketed k (List.mem_cons_of_mem _ hk),
        (List.pairwise_cons.mp hkinds.disjoint).2⟩
    exact hone.trans (ih hlater _ hlater.concat.1
      fun k hk => hdisjoint k (List.mem_cons_of_mem _ hk))

/-- Each kind has one content, which weighs something though its words do not. -/
def Weighty (weight : α → Nat) (kinds : List (List α → Option (List α))) : Prop :=
  ∀ subst ∈ kinds, ∃ content, 0 < weigh weight content ∧
    ∀ word replacement, subst word = some replacement →
      replacement = content ∧ weigh weight word = 0

/-- The passes make the text no lighter than the replacement at once, and only as heavy
where they meet no word too many. -/
theorem weigh_passes {kinds : List (List α → Option (List α))}
    (hkinds : Kinds opening closing kinds) {weight : α → Nat} (hweight : Weighty weight kinds)
    (text : List α) :
    weigh weight (replaced closing (anyOf kinds) text) ≤ weigh weight (passes closing kinds text) ∧
      (weigh weight (passes closing kinds text)
          = weigh weight (replaced closing (anyOf kinds) text) →
            OnlyOwnWords closing kinds text) := by
  induction kinds using List.reverseRecOn with
  | nil =>
    refine ⟨Nat.le_of_eq (congrArg _ (replaced_anyOf_nil text)),
      fun _ before subst behind heq => ?_⟩
    simp at heq
  | append_singleton kinds subst ih =>
    have hcount := wordCount_passes hkinds text
    obtain ⟨hbefore, hsubst, hany, hdisjoint⟩ := hkinds.concat
    obtain ⟨content, hpos, hcontent⟩ := hweight subst (by simp)
    obtain ⟨hle, hsame⟩ := ih hbefore fun kind hkind => hweight kind (List.mem_append_left _ hkind)
    have hone : weigh weight (passes closing (kinds ++ [subst]) text)
        = weigh weight (passes closing kinds text)
          + wordCount closing subst (passes closing kinds text) * weigh weight content := by
      have hnone : either (fun _ => none) subst = subst := by
        funext word
        rfl
      have h := @weigh_either α _ opening closing (fun _ => none) subst (fun _ h => absurd rfl h)
        hsubst (fun _ h => absurd rfl h) weight content hcontent (passes closing kinds text)
      rw [hnone, replaced_none] at h
      rw [passes, List.foldl_append]
      exact h
    have hall := weigh_either hany hsubst hdisjoint hcontent text
    have hmul := Nat.mul_le_mul_right (weigh weight content) hcount
    rw [hone, anyOf_concat, hall]
    refine ⟨Nat.add_le_add hle hmul, fun heq => ?_⟩
    have hown := hsame (by omega)
    have hcounts : wordCount closing subst (passes closing kinds text) * weigh weight content
        = wordCount closing subst text * weigh weight content := by omega
    refine onlyOwnWords_concat.mpr ⟨hown, ?_⟩
    rw [← passes_eq hbefore hown]
    exact Nat.eq_of_mul_eq_mul_right hpos hcounts

end Passes

end PiMono.Markers
