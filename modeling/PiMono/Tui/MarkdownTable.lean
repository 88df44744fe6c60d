import PiMono.Lib.CodeUnits
import PiMono.Lib.Shares
import Mathlib.Algebra.Order.BigOperators.Group.List

/-!
# Tables of Markdown

`renderTable` of `tui/src/components/markdown.ts`, on the texts that `renderInlineTokens` makes of
the cells; divisions are exact. The width of a text, `wrapTextWithAnsi`, `theme.bold` and the
widest grapheme of a text are parameters, and so are the texts to which no character behind them
is joined (`plain`). A table of such texts fits exactly if its natural widths do not, or still do
with a cell for every empty column (`table_fits_iff`).
-/

namespace PiMono.Tui

/-- The texts of a table; a row has as many cells as the header. -/
structure Table where
  header : List JsString
  rows : List (List JsString)
  rect : ∀ row ∈ rows, row.length = header.length

namespace Table

/-! ## Column widths -/

section Widths

variable (visibleWidth : JsString → Nat)

/-- `text.split(/\s+/).filter((word) => word.length > 0)` -/
def words (text : JsString) : List JsString := (text.splitOnP isTrimmed).filter (· ≠ [])

def getLongestWordWidth (text : JsString) (maxWidth : Nat) : Nat :=
  min ((words text).foldl (fun longest word => max longest (visibleWidth word)) 0) maxWidth

def maxUnbrokenWordWidth : Nat := 30

def naturalWidths (table : Table) : List Nat :=
  table.rows.foldl (List.zipWith fun width cell => max width (visibleWidth cell))
    (table.header.map visibleWidth)

def minWordWidths (table : Table) : List Nat :=
  table.rows.foldl
    (List.zipWith fun width cell =>
      max width (getLongestWordWidth visibleWidth cell maxUnbrokenWordWidth))
    (table.header.map fun cell =>
      max 1 (getLongestWordWidth visibleWidth cell maxUnbrokenWordWidth))

end Widths

/-- The loop that gives a cell of what is left to each column. -/
def addLeftover : Nat → List Nat → List Nat
  | leftover + 1, width :: widths => (width + 1) :: addLeftover leftover widths
  | _, widths => widths

/-- What each column grows by, in proportion to its weight. -/
def growth (weights : List Nat) (remaining : Nat) : List Nat :=
  weights.map fun weight => if 0 < weights.sum then weight * remaining / weights.sum else 0

/-- The widths of the longest words, or shares of what is there if these do not fit. -/
def minColumnWidths (minWordWidths : List Nat) (availableForCells : Nat) : List Nat :=
  if availableForCells < minWordWidths.sum then
    let numCols := minWordWidths.length
    let remaining := availableForCells - numCols
    if 0 < remaining then
      let growth := growth (minWordWidths.map (· - 1)) remaining
      addLeftover (remaining - growth.sum) (growth.map (1 + ·))
    else List.replicate numCols 1
  else minWordWidths

/-- What a column can grow by, and its width and natural width when it has. -/
def room (column : Nat × Nat) : Nat := column.2 - column.1

def put (column : Nat × Nat) (delta : Nat) : Nat × Nat := (column.1 + delta, column.2)

/-- The loop that gives what is left to the columns below their natural width, one cell each in
every round. -/
def distribute (remaining : Nat) (columns : List (Nat × Nat)) : List (Nat × Nat) :=
  shareOut room put (fun _ _ _ => 1) remaining columns

def allocate (naturalWidths minWordWidths : List Nat) (availableForCells : Nat) : List Nat :=
  let minColumnWidths := minColumnWidths minWordWidths availableForCells
  if naturalWidths.sum ≤ availableForCells then
    List.zipWith max naturalWidths minColumnWidths
  else
    let minWidthDeltas := List.zipWith (· - ·) naturalWidths minColumnWidths
    let extraWidth := availableForCells - minColumnWidths.sum
    let columnWidths := List.zipWith (· + ·) minColumnWidths (growth minWidthDeltas extraWidth)
    let remaining := availableForCells - columnWidths.sum
    (distribute remaining (columnWidths.zip naturalWidths)).map (·.1)

/-! ## Lines -/

section Lines

variable (visibleWidth : JsString → Nat) (wrapTextWithAnsi : JsString → Nat → List JsString)
variable (bold : JsString → JsString)

def borderOverhead (table : Table) : Nat := 3 * table.header.length + 1

def columnWidths (table : Table) (availableWidth : Nat) : List Nat :=
  allocate (table.naturalWidths visibleWidth) (table.minWordWidths visibleWidth)
    (availableWidth - table.borderOverhead)

/-- `text.repeat(n)` of one unit. -/
def repeated (u : UInt16) (n : Nat) : JsString := List.replicate n u

def wrapCellText (text : JsString) (maxWidth : Nat) : List JsString :=
  wrapTextWithAnsi text (max 1 maxWidth)

/-- The part of a row's line that a cell takes. -/
def rowPart (cellLines : List JsString) (columnWidth lineIdx : Nat) : JsString :=
  let text := cellLines.getD lineIdx []
  text ++ repeated 0x20 (columnWidth - visibleWidth text)

def rowLine (rowParts : List JsString) : JsString :=
  js "│ " ++ (js " │ ").intercalate rowParts ++ js " │"

/-- The lines of a row; `style` is `bold` in the header. -/
def rowLines (style : JsString → JsString) (row : List JsString) (columnWidths : List Nat) :
    List JsString :=
  let rowCellLines := List.zipWith (wrapCellText wrapTextWithAnsi) row columnWidths
  let rowLineCount := (rowCellLines.map List.length).foldl max 0
  (List.range rowLineCount).map fun lineIdx =>
    rowLine (List.zipWith (fun cellLines columnWidth =>
      style (rowPart visibleWidth cellLines columnWidth lineIdx)) rowCellLines columnWidths)

def borderLine (left middle right : JsString) (columnWidths : List Nat) : JsString :=
  left ++ middle.intercalate (columnWidths.map (repeated 0x2500)) ++ right

def topBorder : List Nat → JsString := borderLine (js "┌─") (js "─┬─") (js "─┐")

def separatorLine : List Nat → JsString := borderLine (js "├─") (js "─┼─") (js "─┤")

def bottomBorder : List Nat → JsString := borderLine (js "└─") (js "─┴─") (js "─┘")

/-- The lines of the body, with a separator between any two rows. -/
def bodyLines (columnWidths : List Nat) : List (List JsString) → List JsString
  | [] => []
  | [row] => rowLines visibleWidth wrapTextWithAnsi id row columnWidths
  | row :: rows =>
    rowLines visibleWidth wrapTextWithAnsi id row columnWidths ++
      separatorLine columnWidths :: bodyLines columnWidths rows

/-- The lines of a table that is wide enough. -/
def tableLines (table : Table) (availableWidth : Nat) : List JsString :=
  let columnWidths := table.columnWidths visibleWidth availableWidth
  topBorder columnWidths ::
    rowLines visibleWidth wrapTextWithAnsi bold table.header columnWidths ++
      separatorLine columnWidths ::
        bodyLines visibleWidth wrapTextWithAnsi columnWidths table.rows ++
          [bottomBorder columnWidths]

end Lines

/-! ## The minimum widths -/

theorem sum_div_le (weights : List Nat) (amount total : Nat) :
    (weights.map fun weight => weight * amount / total).sum ≤ weights.sum * amount / total := by
  induction weights with
  | nil => exact Nat.zero_le _
  | cons weight weights ih =>
    simp only [List.map_cons, List.sum_cons]
    calc weight * amount / total + (weights.map fun weight => weight * amount / total).sum
        ≤ weight * amount / total + weights.sum * amount / total := Nat.add_le_add_left ih _
      _ ≤ (weight * amount + weights.sum * amount) / total := Nat.div_add_div_le_add_div
      _ = (weight + weights.sum) * amount / total := by rw [Nat.add_mul]

/-- What is shared out in proportion is no more than what there is. -/
theorem sum_growth_le (weights : List Nat) (remaining : Nat) :
    (growth weights remaining).sum ≤ remaining := by
  rw [growth]
  by_cases hpos : 0 < weights.sum
  · simp only [if_pos hpos]
    calc (weights.map fun weight => weight * remaining / weights.sum).sum
        ≤ weights.sum * remaining / weights.sum := sum_div_le weights remaining weights.sum
      _ = remaining := Nat.mul_div_cancel_left remaining hpos
  · simp [hpos]

theorem length_growth (weights : List Nat) (remaining : Nat) :
    (growth weights remaining).length = weights.length := List.length_map _

theorem sum_addLeftover_le (widths : List Nat) (leftover : Nat) :
    (addLeftover leftover widths).sum ≤ widths.sum + leftover := by
  induction widths generalizing leftover with
  | nil => cases leftover <;> exact Nat.zero_le _
  | cons width widths ih =>
    cases leftover with
    | zero => exact Nat.le_refl _
    | succ leftover =>
      have := ih leftover
      simp only [addLeftover, List.sum_cons]
      omega

theorem length_addLeftover (widths : List Nat) (leftover : Nat) :
    (addLeftover leftover widths).length = widths.length := by
  induction widths generalizing leftover with
  | nil => cases leftover <;> rfl
  | cons width widths ih =>
    cases leftover with
    | zero => rfl
    | succ leftover => exact congrArg (· + 1) (ih leftover)

theorem addLeftover_pos {widths : List Nat} (h : ∀ width ∈ widths, 1 ≤ width) (leftover : Nat) :
    ∀ width ∈ addLeftover leftover widths, 1 ≤ width := by
  induction widths generalizing leftover with
  | nil => cases leftover <;> exact nofun
  | cons width widths ih =>
    cases leftover with
    | zero => exact h
    | succ leftover =>
      rw [addLeftover, List.forall_mem_cons]
      exact ⟨by omega, ih (List.forall_mem_cons.mp h).2 leftover⟩

theorem sum_map_add_one (widths : List Nat) :
    (widths.map (1 + ·)).sum = widths.length + widths.sum := by
  induction widths with
  | nil => rfl
  | cons width widths ih =>
    simp only [List.map_cons, List.sum_cons, List.length_cons, ih]
    omega

variable {natural words : List Nat} {available : Nat}

theorem length_minColumnWidths (words : List Nat) (available : Nat) :
    (minColumnWidths words available).length = words.length := by
  unfold minColumnWidths
  split
  · dsimp only
    split
    · rw [length_addLeftover, List.length_map, length_growth, List.length_map]
    · exact List.length_replicate
  · rfl

theorem minColumnWidths_pos (hwords : ∀ word ∈ words, 1 ≤ word) (available : Nat) :
    ∀ width ∈ minColumnWidths words available, 1 ≤ width := by
  unfold minColumnWidths
  split
  · dsimp only
    split
    · refine addLeftover_pos ?_ _
      intro width hwidth
      obtain ⟨grown, -, rfl⟩ := List.mem_map.mp hwidth
      exact Nat.le_add_right 1 grown
    · exact fun width hwidth => (List.eq_of_mem_replicate hwidth).ge
  · exact hwords

/-- The minimum widths fit. -/
theorem sum_minColumnWidths_le (h : words.length ≤ available) :
    (minColumnWidths words available).sum ≤ available := by
  unfold minColumnWidths
  split
  · dsimp only
    split
    · refine (sum_addLeftover_le _ _).trans ?_
      have hgrowth := sum_growth_le (words.map (· - 1)) (available - words.length)
      rw [sum_map_add_one, length_growth, List.length_map]
      omega
    · simpa using h
  · omega

/-! ## The allocation -/

theorem room_put (column : Nat × Nat) (delta : Nat) (h : delta ≤ room column) :
    room (put column delta) + delta = room column := by
  simp only [room, put] at h ⊢
  omega

/-- A column that grows has the same natural width, and grows no further. -/
structure Grows (before after : Nat × Nat) : Prop where
  wider : before.1 ≤ after.1
  natural : after.2 = before.2
  total : after.1 + room after = before.1 + room before

theorem grows_put (column : Nat × Nat) (delta : Nat) (h : delta ≤ room column) :
    Grows column (put column delta) where
  wider := Nat.le_add_right _ _
  natural := rfl
  total := by
    have := room_put column delta h
    simp only [put] at this ⊢
    omega

theorem Grows.trans {a b c : Nat × Nat} (hab : Grows a b) (hbc : Grows b c) : Grows a c where
  wider := hab.wider.trans hbc.wider
  natural := hbc.natural.trans hab.natural
  total := hbc.total.trans hab.total

theorem distribute_grows (remaining : Nat) (columns : List (Nat × Nat)) :
    List.Forall₂ Grows columns (distribute remaining columns) :=
  forall₂_shareOut _ grows_put (fun _ _ _ => Grows.trans) _ _

theorem sum_add_totalRoom {columns grown : List (Nat × Nat)}
    (h : List.Forall₂ Grows columns grown) :
    (grown.map (·.1)).sum + totalRoom room grown =
      (columns.map (·.1)).sum + totalRoom room columns := by
  induction h with
  | nil => rfl
  | cons hcolumn _ ih =>
    have := hcolumn.total
    simp only [totalRoom, List.map_cons, List.sum_cons] at ih ⊢
    omega

/-- What is left is given away, as far as there is room. -/
theorem sum_distribute (remaining : Nat) (columns : List (Nat × Nat)) :
    ((distribute remaining columns).map (·.1)).sum =
      (columns.map (·.1)).sum + min remaining (totalRoom room columns) := by
  have hsum := sum_add_totalRoom (distribute_grows remaining columns)
  have hroom : totalRoom room (distribute remaining columns) = totalRoom room columns - remaining :=
    totalRoom_shareOut room_put _ _ _
  omega

theorem natural_le_totalRoom {widths natural : List Nat} (h : widths.length = natural.length) :
    natural.sum ≤ widths.sum + totalRoom room (widths.zip natural) := by
  induction widths generalizing natural with
  | nil => rw [List.length_eq_zero_iff.mp h.symm]; exact Nat.le_refl _
  | cons width widths ih =>
    cases natural with
    | nil => cases h
    | cons nat natural =>
      have := ih (Nat.succ.inj h)
      simp only [List.zip_cons_cons, totalRoom, List.map_cons, List.sum_cons, room] at this ⊢
      omega

theorem length_allocate (hlength : natural.length = words.length) (available : Nat) :
    (allocate natural words available).length = words.length := by
  have hmin := length_minColumnWidths words available
  rw [allocate]
  split
  · rw [List.length_zipWith, hmin, hlength, Nat.min_self]
  · rw [List.length_map, ← (distribute_grows _ _).length_eq, List.length_zip, List.length_zipWith,
      length_growth, List.length_zipWith, hmin, hlength, Nat.min_self, Nat.min_self, Nat.min_self]

/-- What is no wider than a width is no wider than a wider one. -/
theorem wider_trans {α : Type} {width : α → Nat} {items : List α} {as bs : List Nat}
    (has : List.Forall₂ (fun item a => width item ≤ a) items as)
    (hbs : List.Forall₂ (· ≤ ·) as bs) : List.Forall₂ (fun item b => width item ≤ b) items bs := by
  induction has generalizing bs with
  | nil =>
    cases hbs
    exact .nil
  | cons hitem _ ih =>
    cases hbs with
    | cons hab hrest => exact .cons (Nat.le_trans hitem hab) (ih hrest)

theorem pos_of_wider {as bs : List Nat} (h : List.Forall₂ (· ≤ ·) as bs) (has : ∀ a ∈ as, 1 ≤ a) :
    ∀ b ∈ bs, 1 ≤ b := by
  induction h with
  | nil => exact nofun
  | cons hle _ ih =>
    obtain ⟨ha, hrest⟩ := List.forall_mem_cons.mp has
    exact List.forall_mem_cons.mpr ⟨ha.trans hle, ih hrest⟩

theorem le_zipWith_max_left {as bs : List Nat} (h : as.length = bs.length) :
    List.Forall₂ (· ≤ ·) as (List.zipWith max as bs) := by
  induction as generalizing bs with
  | nil => exact .nil
  | cons a as ih =>
    cases bs with
    | nil => cases h
    | cons b bs => exact .cons (Nat.le_max_left _ _) (ih (Nat.succ.inj h))

theorem le_zipWith_max_right {as bs : List Nat} (h : as.length = bs.length) :
    List.Forall₂ (· ≤ ·) bs (List.zipWith max as bs) := by
  induction as generalizing bs with
  | nil => rw [List.length_eq_zero_iff.mp h.symm]; exact .nil
  | cons a as ih =>
    cases bs with
    | nil => cases h
    | cons b bs => exact .cons (Nat.le_max_right _ _) (ih (Nat.succ.inj h))

theorem le_zipWith_add {as bs : List Nat} (h : as.length = bs.length) :
    List.Forall₂ (· ≤ ·) as (List.zipWith (· + ·) as bs) := by
  induction as generalizing bs with
  | nil => exact .nil
  | cons a as ih =>
    cases bs with
    | nil => cases h
    | cons b bs => exact .cons (Nat.le_add_right _ _) (ih (Nat.succ.inj h))

theorem sum_zipWith_add {as bs : List Nat} (h : as.length = bs.length) :
    (List.zipWith (· + ·) as bs).sum = as.sum + bs.sum := by
  induction as generalizing bs with
  | nil => rw [List.length_eq_zero_iff.mp h.symm]; rfl
  | cons a as ih =>
    cases bs with
    | nil => cases h
    | cons b bs =>
      have := ih (Nat.succ.inj h)
      simp only [List.zipWith_cons_cons, List.sum_cons] at this ⊢
      omega

theorem map_fst_le {columns grown : List (Nat × Nat)} (h : List.Forall₂ Grows columns grown) :
    List.Forall₂ (· ≤ ·) (columns.map (·.1)) (grown.map (·.1)) := by
  induction h with
  | nil => exact .nil
  | cons hcolumn _ ih => exact .cons hcolumn.wider ih

/-- No column gets less than its minimum width. -/
theorem minColumnWidths_le_allocate (hlength : natural.length = words.length) (available : Nat) :
    List.Forall₂ (· ≤ ·) (minColumnWidths words available) (allocate natural words available) := by
  have hmin := length_minColumnWidths words available
  rw [allocate]
  split
  · exact le_zipWith_max_right (hlength.trans hmin.symm)
  · have hdeltas : (minColumnWidths words available).length =
        (growth (List.zipWith (· - ·) natural (minColumnWidths words available))
          (available - (minColumnWidths words available).sum)).length := by
      rw [length_growth, List.length_zipWith, hmin, hlength, Nat.min_self]
    have hwider := le_zipWith_add hdeltas
    dsimp only
    generalize hwidths : List.zipWith (· + ·) (minColumnWidths words available)
      (growth (List.zipWith (· - ·) natural (minColumnWidths words available))
        (available - (minColumnWidths words available).sum)) = widths at hwider ⊢
    have hwidthsLength : widths.length = natural.length := by
      rw [← hwidths, List.length_zipWith, ← hdeltas, hmin, hlength, Nat.min_self]
    have hgrown := map_fst_le (distribute_grows (available - widths.sum) (widths.zip natural))
    rw [List.map_fst_zip hwidthsLength.le] at hgrown
    exact wider_trans hwider hgrown

/-- Where the natural widths do not fit, the whole width is used. -/
theorem sum_allocate_of_lt (hlength : natural.length = words.length)
    (hcolumns : words.length ≤ available) (hshrink : available < natural.sum) :
    (allocate natural words available).sum = available := by
  have hmin := length_minColumnWidths words available
  have hmins := sum_minColumnWidths_le hcolumns
  rw [allocate, if_neg (by omega)]
  dsimp only
  generalize hgrowth : growth (List.zipWith (· - ·) natural (minColumnWidths words available))
    (available - (minColumnWidths words available).sum) = grown
  have hgrown : grown.length = words.length := by
    rw [← hgrowth, length_growth, List.length_zipWith, hmin, hlength, Nat.min_self]
  have hsum : grown.sum ≤ available - (minColumnWidths words available).sum := by
    rw [← hgrowth]
    exact sum_growth_le _ _
  generalize hwidths : List.zipWith (· + ·) (minColumnWidths words available) grown = widths
  have hwidthsLength : widths.length = natural.length := by
    rw [← hwidths, List.length_zipWith, hmin, hgrown, hlength, Nat.min_self]
  have hwidthsSum : widths.sum = (minColumnWidths words available).sum + grown.sum := by
    rw [← hwidths, sum_zipWith_add (hmin.trans hgrown.symm)]
  have hroom := natural_le_totalRoom hwidthsLength
  rw [sum_distribute, List.map_fst_zip hwidthsLength.le]
  omega

/-- Where they fit, no column is narrower than its natural width. -/
theorem natural_le_allocate (hlength : natural.length = words.length)
    (hfits : natural.sum ≤ available) :
    List.Forall₂ (· ≤ ·) natural (allocate natural words available) := by
  rw [allocate, if_pos hfits]
  exact le_zipWith_max_left (hlength.trans (length_minColumnWidths words available).symm)

/-! ## The widths of a table -/

section Rendered

variable {visibleWidth : JsString → Nat} {wrapTextWithAnsi : JsString → Nat → List JsString}
variable {bold : JsString → JsString} {widestGrapheme : JsString → Nat}
variable {plain : JsString → Prop}

/-- The cells of a row are no wider than the columns. -/
theorem forall₂_foldl_max (width : JsString → Nat) {rows : List (List JsString)}
    {widths : List Nat} (hrows : ∀ row ∈ rows, row.length = widths.length) :
    List.Forall₂ (· ≤ ·) widths
        (rows.foldl (List.zipWith fun most cell => max most (width cell)) widths) ∧
      ∀ row ∈ rows, List.Forall₂ (fun cell most => width cell ≤ most) row
        (rows.foldl (List.zipWith fun most cell => max most (width cell)) widths) := by
  induction rows generalizing widths with
  | nil => exact ⟨List.forall₂_same.mpr fun _ _ => Nat.le_refl _, nofun⟩
  | cons row rows ih =>
    obtain ⟨hrow, hrest⟩ := List.forall_mem_cons.mp hrows
    have hboth : List.Forall₂ (· ≤ ·) widths
          (List.zipWith (fun most cell => max most (width cell)) widths row) ∧
        List.Forall₂ (fun cell most => width cell ≤ most) row
          (List.zipWith (fun most cell => max most (width cell)) widths row) := by
      clear ih hrows hrest
      induction widths generalizing row with
      | nil => rw [List.length_eq_zero_iff.mp hrow]; exact ⟨.nil, .nil⟩
      | cons most widths ih =>
        cases row with
        | nil => cases hrow
        | cons cell row =>
          obtain ⟨hwidths, hcells⟩ := ih row (Nat.succ.inj hrow)
          exact ⟨.cons (Nat.le_max_left _ _) hwidths, .cons (Nat.le_max_right _ _) hcells⟩
    have hlength : (List.zipWith (fun most cell => max most (width cell)) widths row).length =
        widths.length := by
      rw [List.length_zipWith, hrow, Nat.min_self]
    obtain ⟨hwider, hcells⟩ := ih fun other hother => (hrest other hother).trans hlength.symm
    rw [List.foldl_cons, List.forall_mem_cons]
    exact ⟨wider_trans hboth.1 hwider, wider_trans hboth.2 hwider, hcells⟩

/-- What the widths of plain texts are, and what is assumed of wrapping. -/
structure WidthLaws (visibleWidth : JsString → Nat)
    (wrapTextWithAnsi : JsString → Nat → List JsString) (bold : JsString → JsString)
    (widestGrapheme : JsString → Nat) (plain : JsString → Prop) : Prop where
  wrapped : ∀ text width, plain text → widestGrapheme text ≤ width →
    ∀ line ∈ wrapTextWithAnsi text width, plain line ∧ visibleWidth line ≤ width
  empty : plain [] ∧ visibleWidth [] = 0
  padded : ∀ text n, plain text → plain (text ++ repeated 0x20 n) ∧
    visibleWidth (text ++ repeated 0x20 n) = visibleWidth text + n
  bold : ∀ text, plain text → plain (bold text) ∧ visibleWidth (bold text) = visibleWidth text
  word : ∀ text, plain text →
    ∀ word ∈ Table.words text, visibleWidth word ≤ visibleWidth text
  -- the frame of a row joins none of its cells
  row : ∀ rowParts, rowParts ≠ [] → (∀ part ∈ rowParts, plain part) →
    visibleWidth (rowLine rowParts) = (rowParts.map visibleWidth).sum + (3 * rowParts.length + 1)
  -- box-drawing characters are one cell wide
  box : ∀ line : JsString, (∀ u ∈ line, 0x2500 ≤ u ∧ u ≤ 0x257F) → visibleWidth line = line.length

variable {table : Table} {columnWidths : List Nat}

theorem length_intercalate (separator : JsString) {parts : List JsString} (h : parts ≠ []) :
    (separator.intercalate parts).length + separator.length =
      (parts.map List.length).sum + separator.length * parts.length := by
  induction parts with
  | nil => exact absurd rfl h
  | cons part parts ih =>
    cases parts with
    | nil => simp
    | cons next parts =>
      have := ih (List.cons_ne_nil _ _)
      rw [List.intercalate_cons_cons, List.length_append, List.length_append, List.map_cons,
        List.sum_cons, @List.length_cons _ part, Nat.mul_add_one]
      omega

theorem length_borderLine {left middle right : JsString} (hleft : left.length = 2)
    (hmiddle : middle.length = 3) (hright : right.length = 2) (hcolumns : columnWidths ≠ []) :
    (borderLine left middle right columnWidths).length =
      columnWidths.sum + (3 * columnWidths.length + 1) := by
  have hcells : (columnWidths.map (repeated 0x2500)).map List.length = columnWidths := by
    rw [List.map_map]
    exact (List.map_congr_left fun width _ => List.length_replicate).trans (List.map_id _)
  have hjoined := @length_intercalate middle (columnWidths.map (repeated 0x2500)) fun h =>
    hcolumns (List.map_eq_nil_iff.mp h)
  rw [hcells, hmiddle, List.length_map] at hjoined
  rw [borderLine, List.length_append, List.length_append, hleft, hright]
  omega

theorem box_borderLine {left middle right : JsString} (hleft : ∀ u ∈ left, 0x2500 ≤ u ∧ u ≤ 0x257F)
    (hmiddle : ∀ u ∈ middle, 0x2500 ≤ u ∧ u ≤ 0x257F)
    (hright : ∀ u ∈ right, 0x2500 ≤ u ∧ u ≤ 0x257F) :
    ∀ u ∈ borderLine left middle right columnWidths, 0x2500 ≤ u ∧ u ≤ 0x257F := by
  have hjoined : ∀ widths : List Nat,
      ∀ u ∈ middle.intercalate (widths.map (repeated 0x2500)), 0x2500 ≤ u ∧ u ≤ 0x257F := by
    intro widths
    induction widths with
    | nil => exact nofun
    | cons width widths ih =>
      have hcolumn : ∀ u ∈ repeated 0x2500 width, 0x2500 ≤ u ∧ u ≤ 0x257F := fun u hu =>
        by rw [List.eq_of_mem_replicate hu]; decide
      cases widths with
      | nil => simpa using hcolumn
      | cons next widths =>
        rw [List.map_cons, List.map_cons, List.intercalate_cons_cons]
        intro u hu
        obtain (hu | hu) | hu := (List.mem_append.trans (or_congr_left List.mem_append)).mp hu
        · exact hcolumn u hu
        · exact hmiddle u hu
        · exact ih u hu
  intro u hu
  obtain (hu | hu) | hu := (List.mem_append.trans (or_congr_left List.mem_append)).mp hu
  · exact hleft u hu
  · exact hjoined columnWidths u hu
  · exact hright u hu

/-- The parts of a line, if each cell's graphemes fit its column. -/
theorem map_rowPart (h : WidthLaws visibleWidth wrapTextWithAnsi bold widestGrapheme plain)
    {style : JsString → JsString}
    (hstyle : ∀ text, plain text → plain (style text) ∧
      visibleWidth (style text) = visibleWidth text)
    {row : List JsString} (hplain : ∀ cell ∈ row, plain cell)
    (hpos : ∀ width ∈ columnWidths, 1 ≤ width)
    (hrow : List.Forall₂ (fun cell width => widestGrapheme cell ≤ width) row columnWidths)
    (lineIdx : Nat) :
    let parts := List.zipWith (fun cellLines columnWidth =>
        style (rowPart visibleWidth cellLines columnWidth lineIdx))
      (List.zipWith (wrapCellText wrapTextWithAnsi) row columnWidths) columnWidths
    parts.map visibleWidth = columnWidths ∧ ∀ part ∈ parts, plain part := by
  induction hrow with
  | nil => exact ⟨rfl, fun _ hpart => absurd hpart List.not_mem_nil⟩
  | @cons cell width row columnWidths hcell _ ih =>
    obtain ⟨hwidth, hrest⟩ := List.forall_mem_cons.mp hpos
    obtain ⟨hcellPlain, hrowPlain⟩ := List.forall_mem_cons.mp hplain
    have htext : plain ((wrapCellText wrapTextWithAnsi cell width).getD lineIdx []) ∧
        visibleWidth ((wrapCellText wrapTextWithAnsi cell width).getD lineIdx []) ≤ width := by
      rw [wrapCellText, Nat.max_eq_right hwidth, List.getD_eq_getElem?_getD]
      cases hline : (wrapTextWithAnsi cell width)[lineIdx]? with
      | none => exact ⟨h.empty.1, h.empty.2.le.trans (Nat.zero_le _)⟩
      | some line => exact h.wrapped cell width hcellPlain hcell line (List.mem_of_getElem? hline)
    obtain ⟨hpadded, hpaddedWidth⟩ := h.padded _ (width - visibleWidth
      ((wrapCellText wrapTextWithAnsi cell width).getD lineIdx [])) htext.1
    obtain ⟨hstyled, hstyledWidth⟩ := hstyle _ hpadded
    have hpart : visibleWidth (style (rowPart visibleWidth
        (wrapCellText wrapTextWithAnsi cell width) width lineIdx)) = width := by
      rw [rowPart, hstyledWidth, hpaddedWidth]
      have := htext.2
      omega
    obtain ⟨hwidths, hparts⟩ := ih hrowPlain hrest
    simp only [List.zipWith_cons_cons, List.map_cons, hpart, List.forall_mem_cons]
    exact ⟨congrArg (width :: ·) hwidths, hstyled, hparts⟩

/-- Every line of a row is as wide as the columns and the frame. -/
theorem visibleWidth_rowLines
    (h : WidthLaws visibleWidth wrapTextWithAnsi bold widestGrapheme plain)
    {style : JsString → JsString}
    (hstyle : ∀ text, plain text → plain (style text) ∧
      visibleWidth (style text) = visibleWidth text)
    {row : List JsString} (hplain : ∀ cell ∈ row, plain cell) (hcolumns : columnWidths ≠ [])
    (hpos : ∀ width ∈ columnWidths, 1 ≤ width)
    (hrow : List.Forall₂ (fun cell width => widestGrapheme cell ≤ width) row columnWidths) :
    ∀ line ∈ rowLines visibleWidth wrapTextWithAnsi style row columnWidths,
      visibleWidth line = columnWidths.sum + (3 * columnWidths.length + 1) := by
  intro line hline
  obtain ⟨lineIdx, -, rfl⟩ := List.mem_map.mp hline
  obtain ⟨hwidths, hparts⟩ := map_rowPart h hstyle hplain hpos hrow lineIdx
  have hlength := congrArg List.length hwidths
  rw [List.length_map] at hlength
  rw [h.row _ ?_ hparts, hwidths, hlength]
  intro hnil
  rw [hnil] at hlength
  exact hcolumns (List.length_eq_zero_iff.mp hlength.symm)

theorem naturalWidths_cells (visibleWidth : JsString → Nat) (table : Table) :
    (table.naturalWidths visibleWidth).length = table.header.length ∧
      ∀ row ∈ table.header :: table.rows, List.Forall₂ (fun cell width => visibleWidth cell ≤ width)
        row (table.naturalWidths visibleWidth) := by
  obtain ⟨hheader, hrows⟩ := @forall₂_foldl_max visibleWidth table.rows
    (table.header.map visibleWidth)
    fun row hrow => (table.rect row hrow).trans (List.length_map _).symm
  refine ⟨hheader.length_eq.symm.trans (List.length_map _), List.forall_mem_cons.mpr ⟨?_, hrows⟩⟩
  exact List.forall₂_map_left_iff.mp hheader

theorem minWordWidths_pos (visibleWidth : JsString → Nat) (table : Table) :
    (table.minWordWidths visibleWidth).length = table.header.length ∧
      ∀ width ∈ table.minWordWidths visibleWidth, 1 ≤ width := by
  obtain ⟨hheader, -⟩ := @forall₂_foldl_max
    (fun cell => getLongestWordWidth visibleWidth cell maxUnbrokenWordWidth) table.rows
    (table.header.map fun cell =>
      max 1 (getLongestWordWidth visibleWidth cell maxUnbrokenWordWidth))
    fun row hrow => (table.rect row hrow).trans (List.length_map _).symm
  refine ⟨hheader.length_eq.symm.trans (List.length_map _), ?_⟩
  refine pos_of_wider hheader fun width hwidth => ?_
  obtain ⟨cell, -, rfl⟩ := List.mem_map.mp hwidth
  exact Nat.le_max_left _ _

/-- No column is narrower than a grapheme of one of its cells. -/
def GraphemesFit (widestGrapheme : JsString → Nat) (table : Table) (columnWidths : List Nat) :
    Prop :=
  ∀ row ∈ table.header :: table.rows,
    List.Forall₂ (fun cell width => widestGrapheme cell ≤ width) row columnWidths

/-- The columns fit and the lines are rectangular. -/
structure Fits (visibleWidth : JsString → Nat) (wrapTextWithAnsi : JsString → Nat → List JsString)
    (bold : JsString → JsString) (widestGrapheme : JsString → Nat) (table : Table)
    (availableWidth : Nat) : Prop where
  length : (table.columnWidths visibleWidth availableWidth).length = table.header.length
  positive : ∀ width ∈ table.columnWidths visibleWidth availableWidth, 1 ≤ width
  sum : (table.columnWidths visibleWidth availableWidth).sum ≤
    availableWidth - table.borderOverhead
  borders : ∀ border ∈ [topBorder, separatorLine, bottomBorder],
    visibleWidth (border (table.columnWidths visibleWidth availableWidth)) =
      (table.columnWidths visibleWidth availableWidth).sum + table.borderOverhead
  lines : GraphemesFit widestGrapheme table (table.columnWidths visibleWidth availableWidth) →
    ∀ line ∈ table.tableLines visibleWidth wrapTextWithAnsi bold availableWidth,
      visibleWidth line =
        (table.columnWidths visibleWidth availableWidth).sum + table.borderOverhead
  within : (table.columnWidths visibleWidth availableWidth).sum + table.borderOverhead ≤
    availableWidth
  unwrapped : (table.naturalWidths visibleWidth).sum ≤ availableWidth - table.borderOverhead →
    ∀ row ∈ table.header :: table.rows, List.Forall₂ (fun cell width => visibleWidth cell ≤ width)
      row (table.columnWidths visibleWidth availableWidth)
  used : availableWidth - table.borderOverhead < (table.naturalWidths visibleWidth).sum →
    (table.columnWidths visibleWidth availableWidth).sum = availableWidth - table.borderOverhead ∨
      List.Forall₂ (· ≤ ·) (table.naturalWidths visibleWidth)
        (table.columnWidths visibleWidth availableWidth)
  words : (table.minWordWidths visibleWidth).sum ≤ availableWidth - table.borderOverhead →
    List.Forall₂ (· ≤ ·) (table.minWordWidths visibleWidth)
      (table.columnWidths visibleWidth availableWidth)

/-- Where the natural widths fit, they do with a cell for every empty column. -/
def Spare (visibleWidth : JsString → Nat) (table : Table) (availableForCells : Nat) : Prop :=
  (table.naturalWidths visibleWidth).sum ≤ availableForCells →
    ((table.naturalWidths visibleWidth).map (max 1)).sum ≤ availableForCells

instance (visibleWidth : JsString → Nat) (table : Table) (availableForCells : Nat) :
    Decidable (Spare visibleWidth table availableForCells) :=
  inferInstanceAs (Decidable (_ → _))

theorem longestWord_le {text : JsString} {width : Nat}
    (h : ∀ word ∈ Table.words text, visibleWidth word ≤ width) :
    getLongestWordWidth visibleWidth text maxUnbrokenWordWidth ≤ width := by
  have hfold : ∀ (ws : List JsString) (most : Nat), most ≤ width →
      (∀ word ∈ ws, visibleWidth word ≤ width) →
      ws.foldl (fun longest word => max longest (visibleWidth word)) most ≤ width := by
    intro ws
    induction ws with
    | nil => exact fun _ hmost _ => hmost
    | cons word ws ih =>
      intro most hmost hws
      obtain ⟨hword, hws⟩ := List.forall_mem_cons.mp hws
      exact ih _ (max_le hmost hword) hws
  exact (Nat.min_le_left _ _).trans (hfold _ 0 (Nat.zero_le _) h)

/-- Where no word is wider than its cell, a column's words fit its natural width, or a cell. -/
theorem minWordWidths_le (hwords : ∀ row ∈ table.header :: table.rows, ∀ cell ∈ row,
    ∀ word ∈ Table.words cell, visibleWidth word ≤ visibleWidth cell) :
    List.Forall₂ (· ≤ ·) (table.minWordWidths visibleWidth)
      ((table.naturalWidths visibleWidth).map (max 1)) := by
  have hfold : ∀ (rows : List (List JsString)) (mins naturals : List Nat),
      (∀ row ∈ rows, ∀ cell ∈ row, ∀ word ∈ Table.words cell,
        visibleWidth word ≤ visibleWidth cell) →
      List.Forall₂ (· ≤ ·) mins (naturals.map (max 1)) →
      List.Forall₂ (· ≤ ·)
        (rows.foldl (List.zipWith fun width cell =>
          max width (getLongestWordWidth visibleWidth cell maxUnbrokenWordWidth)) mins)
        ((rows.foldl (List.zipWith fun width cell => max width (visibleWidth cell))
          naturals).map (max 1)) := by
    intro rows
    induction rows with
    | nil => exact fun _ _ _ h => h
    | cons row rows ih =>
      intro mins naturals hrows hle
      obtain ⟨hrow, hrest⟩ := List.forall_mem_cons.mp hrows
      refine ih _ _ hrest ?_
      clear hrows hrest
      induction row generalizing mins naturals with
      | nil => simp
      | cons cell row ihrow =>
        obtain ⟨hcell, hrow⟩ := List.forall_mem_cons.mp hrow
        cases naturals with
        | nil =>
          cases hle
          exact .nil
        | cons natural naturals =>
          obtain ⟨least, mins, hleast, hmins, rfl⟩ := List.forall₂_cons_right_iff.mp hle
          have hlongest := longestWord_le hcell
          refine .cons ?_ (ihrow mins naturals hmins hrow)
          dsimp only
          omega
  obtain ⟨hheader, hrows⟩ := List.forall_mem_cons.mp hwords
  refine hfold table.rows _ _ hrows ?_
  rw [List.map_map, List.forall₂_map_left_iff, List.forall₂_map_right_iff, List.forall₂_same]
  exact fun cell hcell => max_le_max_left 1 (longestWord_le (hheader cell hcell))

/-- Raised to the minimum widths, the natural widths fit if they do with a cell for every empty
column. -/
theorem sum_raised_le_iff (hpos : ∀ word ∈ words, 1 ≤ word)
    (hwords : List.Forall₂ (· ≤ ·) words (natural.map (max 1))) (available : Nat) :
    (List.zipWith max natural (minColumnWidths words available)).sum ≤ available ↔
      (natural.map (max 1)).sum ≤ available := by
  have hlength : natural.length = words.length := by
    rw [hwords.length_eq, List.length_map]
  have hraised : ∀ {mins : List Nat}, mins.length = natural.length → (∀ width ∈ mins, 1 ≤ width) →
      List.Forall₂ (· ≤ ·) (natural.map (max 1)) (List.zipWith max natural mins) := by
    intro mins hmins hone
    clear hwords hlength
    induction natural generalizing mins with
    | nil => exact .nil
    | cons nat natural ih =>
      cases mins with
      | nil => cases hmins
      | cons width mins =>
        obtain ⟨hwidth, hone⟩ := List.forall_mem_cons.mp hone
        exact .cons (by omega) (ih (Nat.succ.inj hmins) hone)
  have hmin := (length_minColumnWidths words available).trans hlength.symm
  have hmore := (hraised hmin (minColumnWidths_pos hpos available)).sum_le_sum
  refine ⟨hmore.trans, fun hfits => ?_⟩
  have hfit : ¬ available < words.sum := Nat.not_lt.mpr (hwords.sum_le_sum.trans hfits)
  rw [minColumnWidths, if_neg hfit]
  refine (List.Forall₂.sum_le_sum ?_).trans hfits
  clear hmin hmore hfits hfit hraised
  induction natural generalizing words with
  | nil => exact .nil
  | cons nat natural ih =>
    obtain ⟨word, words, hword, hrest, rfl⟩ := List.forall₂_cons_right_iff.mp hwords
    exact .cons (max_le (Nat.le_max_right 1 nat) hword)
      (ih (fun w hw => hpos w (List.mem_cons_of_mem _ hw)) hrest (Nat.succ.inj hlength))

theorem visibleWidth_borders (h : WidthLaws visibleWidth wrapTextWithAnsi bold widestGrapheme plain)
    (hcolumns : columnWidths ≠ []) :
    ∀ border ∈ [topBorder, separatorLine, bottomBorder],
      visibleWidth (border columnWidths) = columnWidths.sum + (3 * columnWidths.length + 1) := by
  have hborder : ∀ left middle right : JsString, left.length = 2 → middle.length = 3 →
      right.length = 2 →
      (left ++ middle ++ right).all (fun u => decide (0x2500 ≤ u ∧ u ≤ 0x257F)) = true →
      visibleWidth (borderLine left middle right columnWidths) =
        columnWidths.sum + (3 * columnWidths.length + 1) := by
    intro left middle right hleft hmiddle hright hall
    have hbox : ∀ u ∈ left ++ middle ++ right, 0x2500 ≤ u ∧ u ≤ 0x257F :=
      fun u hu => of_decide_eq_true (List.all_eq_true.mp hall u hu)
    rw [h.box _ (box_borderLine (fun u hu => hbox u (by simp [hu]))
      (fun u hu => hbox u (by simp [hu])) fun u hu => hbox u (by simp [hu])),
      length_borderLine hleft hmiddle hright hcolumns]
  intro border hmem
  simp only [List.mem_cons, List.not_mem_nil, or_false] at hmem
  obtain rfl | rfl | rfl := hmem
  · exact hborder _ _ _ rfl rfl rfl (by decide)
  · exact hborder _ _ _ rfl rfl rfl (by decide)
  · exact hborder _ _ _ rfl rfl rfl (by decide)

/-- A line is a border, or of a row. -/
theorem mem_bodyLines {line : JsString} {rows : List (List JsString)}
    (h : line ∈ bodyLines visibleWidth wrapTextWithAnsi columnWidths rows) :
    line = separatorLine columnWidths ∨
      ∃ row ∈ rows, line ∈ rowLines visibleWidth wrapTextWithAnsi id row columnWidths := by
  induction rows with
  | nil => cases h
  | cons row rows ih =>
    cases rows with
    | nil => exact .inr ⟨row, List.mem_cons_self, h⟩
    | cons next rows =>
      simp only [bodyLines, List.mem_append, List.mem_cons] at h
      obtain h | rfl | h := h
      · exact .inr ⟨row, List.mem_cons_self, h⟩
      · exact .inl rfl
      · obtain hborder | ⟨other, hother, hline⟩ := ih h
        · exact .inl hborder
        · exact .inr ⟨other, List.mem_cons_of_mem _ hother, hline⟩

/-- A table of plain texts that has room for a cell in every column fits exactly if its natural
widths do not, or still do with a cell for every empty column. -/
theorem table_fits_iff (h : WidthLaws visibleWidth wrapTextWithAnsi bold widestGrapheme plain)
    (table : Table) (availableWidth : Nat)
    (hplain : ∀ row ∈ table.header :: table.rows, ∀ cell ∈ row, plain cell)
    (hcolumns : table.header ≠ [])
    (hroom : table.borderOverhead + table.header.length ≤ availableWidth) :
    Fits visibleWidth wrapTextWithAnsi bold widestGrapheme table availableWidth ↔
      Spare visibleWidth table (availableWidth - table.borderOverhead) := by
  obtain ⟨hnatural, hcells⟩ := naturalWidths_cells visibleWidth table
  obtain ⟨hwords, hpos⟩ := minWordWidths_pos visibleWidth table
  have hlength : (table.naturalWidths visibleWidth).length =
      (table.minWordWidths visibleWidth).length := hnatural.trans hwords.symm
  have hraised := sum_raised_le_iff hpos (minWordWidths_le fun row hrow cell hcell =>
    h.word cell (hplain row hrow cell hcell)) (availableWidth - table.borderOverhead)
  constructor
  · intro hfits hspare
    have hsum := hfits.sum
    rw [columnWidths, allocate, if_pos hspare] at hsum
    exact hraised.mp hsum
  · intro hspare
    have hcolumnsLength : (table.columnWidths visibleWidth availableWidth).length =
        table.header.length := (length_allocate hlength _).trans hwords
    have hmins := minColumnWidths_le_allocate hlength (availableWidth - table.borderOverhead)
    have hsum : (table.columnWidths visibleWidth availableWidth).sum ≤
        availableWidth - table.borderOverhead := by
      by_cases hnaturals : (table.naturalWidths visibleWidth).sum ≤
          availableWidth - table.borderOverhead
      · rw [columnWidths, allocate, if_pos hnaturals]
        exact hraised.mpr (hspare hnaturals)
      · exact (sum_allocate_of_lt hlength (by rw [hwords]; omega) (Nat.lt_of_not_le hnaturals)).le
    have hpositive : ∀ width ∈ table.columnWidths visibleWidth availableWidth, 1 ≤ width :=
      pos_of_wider hmins (minColumnWidths_pos hpos _)
    have hne : table.columnWidths visibleWidth availableWidth ≠ [] := by
      intro hnil
      rw [hnil] at hcolumnsLength
      exact hcolumns (List.length_eq_zero_iff.mp hcolumnsLength.symm)
    have hborders := visibleWidth_borders h hne
    rw [hcolumnsLength] at hborders
    refine ⟨hcolumnsLength, hpositive, hsum, hborders, ?_, by omega, ?_, ?_, ?_⟩
    · intro hgraphemes line hline
      have hrows : ∀ style, (∀ text, plain text → plain (style text) ∧
            visibleWidth (style text) = visibleWidth text) →
          ∀ row ∈ table.header :: table.rows, line ∈ rowLines visibleWidth wrapTextWithAnsi style
            row (table.columnWidths visibleWidth availableWidth) → visibleWidth line =
              (table.columnWidths visibleWidth availableWidth).sum + table.borderOverhead := by
        intro style hstyle row hrow hmem
        rw [visibleWidth_rowLines h hstyle (hplain row hrow) hne hpositive (hgraphemes row hrow)
          line hmem, hcolumnsLength]
        rfl
      simp only [tableLines, List.mem_append, List.mem_cons, List.not_mem_nil, or_false] at hline
      obtain ((rfl | hline) | rfl | hline) | rfl := hline
      · exact hborders topBorder (by simp)
      · exact hrows bold h.bold _ List.mem_cons_self hline
      · exact hborders separatorLine (by simp)
      · obtain rfl | ⟨row, hrow, hline⟩ := mem_bodyLines hline
        · exact hborders separatorLine (by simp)
        · exact hrows id (fun _ htext => ⟨htext, rfl⟩) row (List.mem_cons_of_mem _ hrow) hline
      · exact hborders bottomBorder (by simp)
    · intro hnaturals row hrow
      exact wider_trans (hcells row hrow) (natural_le_allocate hlength hnaturals)
    · intro hshrink
      exact .inl (sum_allocate_of_lt hlength (by rw [hwords]; omega) hshrink)
    · intro hfit
      rw [minColumnWidths, if_neg (Nat.not_lt.mpr hfit)] at hmins
      exact hmins

end Rendered

/-- A text that is too wide is cut into its units. -/
def wrapUnits (text : JsString) (width : Nat) : List JsString :=
  if text.length ≤ width then [text] else text.map ([·])

theorem length_le_of_mem_splitOnP {p : UInt16 → Bool} {text piece : JsString}
    (h : piece ∈ text.splitOnP p) : piece.length ≤ text.length := by
  induction text generalizing piece with
  | nil =>
    rw [List.splitOnP_nil, List.mem_singleton] at h
    rw [h]
  | cons u us ih =>
    rw [List.splitOnP_cons_eq_if_modifyHead] at h
    split at h
    · rcases List.mem_cons.mp h with rfl | h
      · exact Nat.zero_le _
      · exact (ih h).trans (Nat.le_succ _)
    · obtain ⟨first, pieces, hpieces⟩ := List.exists_cons_of_ne_nil (List.splitOnP_ne_nil p us)
      rw [hpieces, List.modifyHead_cons] at h
      rcases List.mem_cons.mp h with rfl | h
      · exact Nat.succ_le_succ (ih (by rw [hpieces]; exact List.mem_cons_self))
      · exact (ih (by rw [hpieces]; exact List.mem_cons_of_mem _ h)).trans (Nat.le_succ _)

/-- Every unit is one cell wide. -/
theorem widthLaws_length : WidthLaws List.length wrapUnits id (fun _ => 1) fun _ => True := by
  refine ⟨?_, ⟨trivial, rfl⟩, ?_, fun _ h => ⟨h, rfl⟩, ?_, ?_, fun _ _ => rfl⟩
  · intro text width _ hwidth line hline
    refine ⟨trivial, ?_⟩
    rw [wrapUnits] at hline
    split at hline
    · rename_i hfits
      rwa [List.mem_singleton.mp hline]
    · obtain ⟨u, -, rfl⟩ := List.mem_map.mp hline
      exact hwidth
  · intro text n _
    rw [List.length_append, repeated, List.length_replicate]
    exact ⟨trivial, rfl⟩
  · intro text _ word hword
    exact length_le_of_mem_splitOnP (List.mem_filter.mp hword).1
  · intro rowParts hparts _
    have hjoined := length_intercalate (js " │ ") hparts
    rw [show (js " │ ").length = 3 from rfl] at hjoined
    rw [rowLine, List.length_append, List.length_append, show (js "│ ").length = 2 from rfl,
      show (js " │").length = 2 from rfl]
    omega

/-- `| a |   |` above `| b | c |` -/
def smallTable : Table where
  header := [js "a", []]
  rows := [[js "b", js "c"]]
  rect := by decide

theorem table_fits_small : Fits List.length wrapUnits id (fun _ => 1) smallTable 11 :=
  (table_fits_iff widthLaws_length smallTable 11 (fun _ _ _ _ => trivial) (by decide)
    (by decide)).mpr (by decide)

/-- `| ab |  |` -/
def emptyColumn : Table where
  header := [js "ab", []]
  rows := []
  rect := nofun

/-- An empty column gets a cell that is not there. -/
theorem not_fits_emptyColumn :
    ¬ ∀ (visibleWidth : JsString → Nat) (wrapTextWithAnsi : JsString → Nat → List JsString)
      (bold : JsString → JsString) (widestGrapheme : JsString → Nat) (table : Table)
      (availableWidth : Nat),
      WidthLaws visibleWidth wrapTextWithAnsi bold widestGrapheme (fun _ => True) →
        table.header ≠ [] →
        table.borderOverhead + table.header.length ≤ availableWidth →
          Fits visibleWidth wrapTextWithAnsi bold widestGrapheme table availableWidth := by
  intro h
  have hfits := h List.length wrapUnits id (fun _ => 1) emptyColumn 9 widthLaws_length (by decide)
    (by decide)
  exact absurd hfits.sum (by decide)

end Table

end PiMono.Tui
