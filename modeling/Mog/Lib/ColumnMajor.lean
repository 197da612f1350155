import Mathlib.Algebra.BigOperators.Group.List.Basic
import Mathlib.Tactic.Ring

/-!
# Column-major tables

A table of rows whose cells have a fixed width in each column, stored column after
column. Row `r` of a table of `n` rows has its cell of width `w` at `r * w` past the
start of the column, and the next column starts `w * n` further on.

The cells are byte strings of their columns' widths, and a row is one cell for each column. A
writer that keeps one buffer for each column appends a row cell by cell; a reader that strides
through the columns reads the rows in order. That the second undoes the first needs only the
widths.
-/

namespace Mog

namespace ColumnMajor

variable {α : Type}

/-- Each cell of the row is as wide as its column. -/
def Shaped (ws : List Nat) (row : List (List α)) : Prop := row.map List.length = ws

/-- The columns of a table, each its cells one after the other. -/
def columns : List Nat → List (List (List α)) → List (List α)
  | [], _ => []
  | _ :: ws, rows => (rows.flatMap fun row => row.headD []) :: columns ws (rows.map List.tail)

/-- Row `r` of a table of `n` rows whose first column starts at `off`. -/
def readRow (buf : List α) (n r : Nat) : Nat → List Nat → List (List α)
  | _, [] => []
  | off, w :: ws => (buf.drop (off + r * w)).take w :: readRow buf n r (off + w * n) ws

theorem shaped_cons {w : Nat} {ws : List Nat} {row : List (List α)} (h : Shaped (w :: ws) row) :
    ∃ cell cells, row = cell :: cells ∧ cell.length = w ∧ Shaped ws cells := by
  cases row with
  | nil => exact absurd h (by simp [Shaped])
  | cons cell cells =>
      obtain ⟨hcell, hcells⟩ := List.cons.inj h
      exact ⟨cell, cells, rfl, hcell, hcells⟩

/-- The tails of shaped rows are shaped. -/
theorem shaped_tails {w : Nat} {ws : List Nat} {rows : List (List (List α))}
    (h : ∀ row ∈ rows, Shaped (w :: ws) row) : ∀ row ∈ rows.map List.tail, Shaped ws row := by
  intro row hrow
  obtain ⟨row', hmem, rfl⟩ := List.mem_map.mp hrow
  obtain ⟨cell, cells, rfl, -, hcells⟩ := shaped_cons (h row' hmem)
  exact hcells

/-- A table without rows has empty columns. -/
theorem columns_nil (ws : List Nat) :
    columns ws ([] : List (List (List α))) = ws.map fun _ => [] := by
  induction ws with
  | nil => rfl
  | cons w ws ih => exact congrArg (List.cons []) ih

theorem columns_count (ws : List Nat) (rows : List (List (List α))) :
    (columns ws rows).length = ws.length := by
  induction ws generalizing rows with
  | nil => rfl
  | cons w ws ih => exact congrArg (· + 1) (ih _)

/-- **A row is appended cell by cell.** -/
theorem columns_append_row (ws : List Nat) (rows : List (List (List α))) {row : List (List α)}
    (h : Shaped ws row) :
    columns ws (rows ++ [row]) = List.zipWith (· ++ ·) (columns ws rows) row := by
  induction ws generalizing rows row with
  | nil => rfl
  | cons w ws ih =>
      obtain ⟨cell, cells, rfl, -, hcells⟩ := shaped_cons h
      have htails : (rows ++ [cell :: cells]).map List.tail = rows.map List.tail ++ [cells] := by
        rw [List.map_append]
        rfl
      rw [columns, columns, List.zipWith_cons_cons, htails, ih _ hcells, List.flatMap_append]
      congr 2
      exact List.append_nil cell

/-- The length of one column. -/
theorem column_length {w : Nat} {ws : List Nat} {rows : List (List (List α))}
    (h : ∀ row ∈ rows, Shaped (w :: ws) row) :
    (rows.flatMap fun row => row.headD []).length = w * rows.length := by
  induction rows with
  | nil => rfl
  | cons row rows ih =>
      obtain ⟨cell, cells, rfl, hcell, -⟩ := shaped_cons (h row List.mem_cons_self)
      have hrest := ih fun r hr => h r (List.mem_cons_of_mem _ hr)
      rw [List.flatMap_cons, List.length_append, hrest, List.length_cons]
      show cell.length + _ = _
      rw [hcell]
      ring

theorem columns_length {ws : List Nat} {rows : List (List (List α))}
    (h : ∀ row ∈ rows, Shaped ws row) :
    (columns ws rows).flatten.length = (ws.map (· * rows.length)).sum := by
  induction ws generalizing rows with
  | nil => rfl
  | cons w ws ih =>
      rw [columns, List.flatten_cons, List.length_append, column_length h, ih (shaped_tails h),
        List.length_map, List.map_cons, List.sum_cons]

/-- A cell of one column. -/
theorem column_cell {w : Nat} {ws : List Nat} {rows : List (List (List α))}
    (h : ∀ row ∈ rows, Shaped (w :: ws) row) {r : Nat} {cell : List α} {cells : List (List α)}
    (hr : rows[r]? = some (cell :: cells)) (post : List α) :
    ((((rows.flatMap fun row => row.headD []) ++ post)).drop (r * w)).take w = cell := by
  induction rows generalizing r with
  | nil => exact absurd hr nofun
  | cons row rows ih =>
      obtain ⟨first, others, rfl, hfirst, -⟩ := shaped_cons (h row List.mem_cons_self)
      rw [List.flatMap_cons, List.append_assoc]
      cases r with
      | zero =>
          cases hr
          rw [Nat.zero_mul]
          exact List.take_left' hfirst
      | succ r =>
          have hskip : (r + 1) * w = first.length + r * w := by
            rw [hfirst]
            ring
          rw [hskip]
          show (((first ++ _).drop (first.length + r * w))).take w = cell
          rw [List.drop_length_add_append]
          exact ih (fun row hrow => h row (List.mem_cons_of_mem _ hrow)) hr

/-- **Strided reads of the columns give the rows back.** -/
theorem readRow_columns {ws : List Nat} {rows : List (List (List α))}
    (h : ∀ row ∈ rows, Shaped ws row) {r : Nat} {row : List (List α)} (hr : rows[r]? = some row)
    (pre post : List α) :
    readRow (pre ++ ((columns ws rows).flatten ++ post)) rows.length r pre.length ws = row := by
  induction ws generalizing rows row pre with
  | nil =>
      have hrow := h row (List.mem_of_getElem? hr)
      exact (List.map_eq_nil_iff.mp hrow).symm
  | cons w ws ih =>
      obtain ⟨cell, cells, rfl, -, -⟩ := shaped_cons (h row (List.mem_of_getElem? hr))
      have htail : (rows.map List.tail)[r]? = some cells := by
        rw [List.getElem?_map, hr]
        rfl
      have hlen : pre.length + w * rows.length
          = (pre ++ rows.flatMap fun row => row.headD []).length := by
        rw [List.length_append, column_length h]
      have hrest := ih (shaped_tails h) htail (pre ++ rows.flatMap fun row => row.headD [])
      rw [List.length_map, List.append_assoc] at hrest
      rw [readRow, columns, List.flatten_cons, List.append_assoc, List.drop_length_add_append,
        column_cell h hr, hlen, hrest]

end ColumnMajor

end Mog
