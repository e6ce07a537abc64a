import Mathlib.Data.List.Basic
import Mathlib.Tactic.SplitIfs
import Tianole.Video.Fbcon

/-! The framebuffer console as a grid of characters: what the grid is, how it is drawn, and that
the pixels always show it. -/
namespace Tianole.Video
open Access

/-! ### The grid -/

def blank : UInt8 := 0x20

/-- The character of each cell, by column and row, and the cursor. -/
structure Grid where
  cells : ℕ → ℕ → UInt8
  x : ℕ
  y : ℕ

namespace Grid

def start : Grid := ⟨fun _ _ => blank, 0, 0⟩

/-- Every row takes the contents of the next; the last one becomes blank. -/
def scrolled (rows : ℕ) (cells : ℕ → ℕ → UInt8) (column row : ℕ) : UInt8 :=
  if row + 1 < rows then cells column (row + 1) else blank

def lineFeed (rows : ℕ) (g : Grid) : Grid :=
  if g.y + 1 < rows then { g with x := 0, y := g.y + 1 }
  else ⟨scrolled rows g.cells, 0, rows - 1⟩

def set (g : Grid) (column row : ℕ) (ch : UInt8) : Grid :=
  { g with cells := fun c r => if c = column ∧ r = row then ch else g.cells c r }

/-- What a byte does to a grid of the given size. -/
def put (columns rows : ℕ) (g : Grid) (ch : UInt8) : Grid :=
  if ch = asciiCr then g
  else if ch = asciiBs then
    if g.x = 0 then g else { g.set (g.x - 1) g.y blank with x := g.x - 1 }
  else if ch = asciiLf then g.lineFeed rows
  else
    let g := { g.set g.x g.y ch with x := g.x + 1 }
    if columns ≤ g.x then g.lineFeed rows else g

end Grid

/-! ### Drawing -/

/-- The glyph of a character, or that of the question mark. -/
def glyphOf (ch : UInt8) : List UInt8 := (glyphIn ch font).getD ((glyphIn 0x3f font).getD [])

def background (info : FbInfo) : UInt32 := pixelColor info 0 0 0
def foreground (info : FbInfo) : UInt32 := pixelColor info 220 220 220

/-- The pixel at `(x, y)` of a cell: the glyph lies between a blank row above, another below and
a blank column to the right. -/
def cellPixel (info : FbInfo) (ch : UInt8) (x y : ℕ) : UInt32 :=
  if x < 5 ∧ 1 ≤ y ∧ y < 8 ∧ glyphBit ((glyphOf ch).getD (y - 1) 0) x = true then foreground info
  else background info

/-- The pixel at `(x, y)` of a screen that shows the cells. -/
def render (info : FbInfo) (columns rows : ℕ) (cells : ℕ → ℕ → UInt8) (x y : ℕ) : UInt32 :=
  if x < columns * 6 ∧ y < rows * 9 then cellPixel info (cells (x / 6) (y / 9)) (x % 6) (y % 9)
  else background info

theorem fbconFontGlyph_eq (ch : UInt8) : fbconFontGlyph ch = glyphOf ch := by
  have hlast : (font.getD (font.length - 1) ⟨0, []⟩).rows = (glyphIn 0x3f font).getD [] := rfl
  unfold fbconFontGlyph glyphOf
  cases glyphIn ch font with
  | none => exact hlast
  | some rows => rfl

theorem cellPixel_blank (info : FbInfo) (x y : ℕ) : cellPixel info blank x y = background info := by
  have hglyph (i : ℕ) : (glyphOf blank).getD i 0 = 0 := by
    have hrows : glyphOf blank = [0, 0, 0, 0, 0, 0, 0] := rfl
    rw [hrows]
    rcases i with _ | _ | _ | _ | _ | _ | _ | i <;> rfl
  have hbit : glyphBit 0 x = false := by simp [glyphBit]
  simp only [cellPixel, hglyph, hbit, Bool.false_eq_true, and_false, if_false]

/-! ### Pixels and indices -/

/-- A console that `fbcon_init` accepted, on a framebuffer whose indices fit into 32 bits. -/
structure Fits (c : Fbcon) : Prop where
  base : c.info.base = true
  stride : c.info.width ≤ c.info.pixelsPerScanLine
  small : c.info.height * c.info.pixelsPerScanLine < 2 ^ 32
  columns : c.columns = c.info.width / 6
  rows : c.rows = c.info.height / 9
  columnsPos : 0 < c.columns
  rowsPos : 0 < c.rows

/-- Every access is to a pixel that can be seen. -/
def Inside (info : FbInfo) (a : Access UInt32) : Prop :=
  ∀ i ∈ a.indices, ∃ x y, x < info.width ∧ y < info.height ∧ i = y * info.pixelsPerScanLine + x

section
variable {c : Fbcon} {frame : ℕ → UInt32} {x y : ℕ} {color : UInt32}

theorem Fits.index_lt (h : Fits c) (hx : x < c.info.width) (hy : y < c.info.height) :
    y * c.info.pixelsPerScanLine + x < c.info.height * c.info.pixelsPerScanLine := by
  have hle : (y + 1) * c.info.pixelsPerScanLine ≤ c.info.height * c.info.pixelsPerScanLine :=
    Nat.mul_le_mul_right _ hy
  have hstride := h.stride
  rw [Nat.succ_mul] at hle
  omega

theorem Fits.pixelIndex_eq (h : Fits c) (hx : x < c.info.width) (hy : y < c.info.height) :
    pixelIndex c.info x y = y * c.info.pixelsPerScanLine + x :=
  Nat.mod_eq_of_lt (Nat.lt_trans (h.index_lt hx hy) h.small)

theorem Fits.index_inj (h : Fits c) {x' y' : ℕ} (hx : x < c.info.width) (hx' : x' < c.info.width)
    (he : y * c.info.pixelsPerScanLine + x = y' * c.info.pixelsPerScanLine + x') :
    x = x' ∧ y = y' := by
  have hlt : x < c.info.pixelsPerScanLine := Nat.lt_of_lt_of_le hx h.stride
  have hlt' : x' < c.info.pixelsPerScanLine := Nat.lt_of_lt_of_le hx' h.stride
  have hmod := congrArg (· % c.info.pixelsPerScanLine) he
  simp only [Nat.mul_add_mod', Nat.mod_eq_of_lt hlt, Nat.mod_eq_of_lt hlt'] at hmod
  subst hmod
  exact ⟨rfl, Nat.eq_of_mul_eq_mul_right (by omega) (Nat.add_right_cancel he)⟩

/-- Pixels drawn in one color. -/
def paint (info : FbInfo) (color : UInt32) (points : List (ℕ × ℕ)) : List (Access UInt32) :=
  points.flatMap fun p => drawPixel info p.1 p.2 color

theorem mem_paint {points : List (ℕ × ℕ)} {a : Access UInt32} :
    a ∈ paint c.info color points ↔ ∃ x y, (x, y) ∈ points ∧ x < c.info.width ∧
      y < c.info.height ∧ a = .store (pixelIndex c.info x y) color := by
  simp only [paint, List.mem_flatMap, Prod.exists, drawPixel]
  refine exists_congr fun x => exists_congr fun y => and_congr_right fun _ => ?_
  split_ifs with hout
  · simp only [List.not_mem_nil, false_iff, not_and]
    omega
  · simp only [List.mem_singleton]
    constructor
    · exact fun h => ⟨by omega, by omega, h⟩
    · exact fun h => h.2.2

theorem Fits.inside_paint (h : Fits c) (points : List (ℕ × ℕ)) :
    ∀ a ∈ paint c.info color points, Inside c.info a := by
  intro a ha i hi
  obtain ⟨x, y, -, hx, hy, rfl⟩ := mem_paint.mp ha
  obtain rfl : i = pixelIndex c.info x y := by simpa [indices] using hi
  exact ⟨x, y, hx, hy, h.pixelIndex_eq hx hy⟩

theorem Fits.run_paint (h : Fits c) (points : List (ℕ × ℕ)) (hx : x < c.info.width)
    (hy : y < c.info.height) :
    run frame (paint c.info color points) (y * c.info.pixelsPerScanLine + x) =
      if (x, y) ∈ points then color else frame (y * c.info.pixelsPerScanLine + x) := by
  by_cases hmem : (x, y) ∈ points
  · rw [if_pos hmem]
    refine run_stores (fun a ha => ?_) ⟨.store (pixelIndex c.info x y) color, ?_, ?_⟩
    · obtain ⟨x', y', -, -, -, rfl⟩ := mem_paint.mp ha
      exact ⟨_, rfl⟩
    · exact mem_paint.mpr ⟨x, y, hmem, hx, hy, rfl⟩
    · exact h.pixelIndex_eq hx hy
  · rw [if_neg hmem]
    refine run_of_forall_ne fun a ha he => hmem ?_
    obtain ⟨x', y', hpoint, hx', hy', rfl⟩ := mem_paint.mp ha
    rw [target, h.pixelIndex_eq hx' hy'] at he
    obtain ⟨rfl, rfl⟩ := h.index_inj hx hx' he
    exact hpoint

/-! ### Cells -/

/-- The pixels of a cell. -/
def cellPoints (column row : ℕ) : List (ℕ × ℕ) :=
  (List.range 9).flatMap fun y => (List.range 6).map fun x => (column * 6 + x, row * 9 + y)

/-- The pixels of a glyph in a cell. -/
def glyphPoints (ch : UInt8) (column row : ℕ) : List (ℕ × ℕ) :=
  (List.range 7).flatMap fun glyphRow => (List.range 5).flatMap fun glyphCol =>
    if glyphBit ((glyphOf ch).getD glyphRow 0) glyphCol = false then []
    else [(column * 6 + glyphCol, row * 9 + 1 + glyphRow)]

theorem clearCell_eq (info : FbInfo) (column row : ℕ) :
    clearCell info column row = paint info (background info) (cellPoints column row) := by
  simp only [clearCell, paint, cellPoints, List.flatMap_assoc, List.flatMap_map]
  rfl

theorem drawChar_eq (info : FbInfo) (ch : UInt8) (column row : ℕ) :
    drawChar info ch column row = clearCell info column row ++
      paint info (foreground info) (glyphPoints ch column row) := by
  simp only [drawChar, paint, glyphPoints, List.flatMap_assoc, fbconFontGlyph_eq]
  congr 1
  refine congrArg (List.flatMap · _) (funext fun glyphRow => ?_)
  refine congrArg (List.flatMap · _) (funext fun glyphCol => ?_)
  split_ifs <;> simp [glyphScale, cellWidth, cellHeight, foreground]

theorem mem_cellPoints {column row : ℕ} :
    (x, y) ∈ cellPoints column row ↔ x / 6 = column ∧ y / 9 = row := by
  simp only [cellPoints, List.mem_flatMap, List.mem_map, List.mem_range, Prod.mk.injEq]
  constructor
  · rintro ⟨dy, hdy, dx, hdx, rfl, rfl⟩
    omega
  · rintro ⟨rfl, rfl⟩
    exact ⟨y % 9, by omega, x % 6, by omega, by omega, by omega⟩

theorem mem_glyphPoints {ch : UInt8} {column row : ℕ} :
    (x, y) ∈ glyphPoints ch column row ↔ (x / 6 = column ∧ y / 9 = row) ∧ x % 6 < 5 ∧ 1 ≤ y % 9 ∧
      y % 9 < 8 ∧ glyphBit ((glyphOf ch).getD (y % 9 - 1) 0) (x % 6) = true := by
  simp only [glyphPoints, List.mem_flatMap, List.mem_range]
  constructor
  · rintro ⟨glyphRow, hrow, glyphCol, hcol, hmem⟩
    split_ifs at hmem with hbit
    · cases hmem
    · obtain ⟨rfl, rfl⟩ := Prod.mk.inj (List.mem_singleton.mp hmem)
      have hx : (column * 6 + glyphCol) % 6 = glyphCol := by omega
      have hy : (row * 9 + 1 + glyphRow) % 9 - 1 = glyphRow := by omega
      rw [hx, hy]
      exact ⟨by omega, hcol, by omega, by omega, Bool.not_eq_false _ ▸ hbit⟩
  · rintro ⟨⟨rfl, rfl⟩, hx, hy, hy', hbit⟩
    refine ⟨y % 9 - 1, by omega, x % 6, hx, ?_⟩
    rw [hbit, if_neg (by decide), List.mem_singleton, Prod.mk.injEq]
    omega

theorem Fits.run_clearCell (h : Fits c) (column row : ℕ) (hx : x < c.info.width)
    (hy : y < c.info.height) :
    run frame (clearCell c.info column row) (y * c.info.pixelsPerScanLine + x) =
      if x / 6 = column ∧ y / 9 = row then background c.info
      else frame (y * c.info.pixelsPerScanLine + x) := by
  rw [clearCell_eq, h.run_paint _ hx hy]
  simp only [mem_cellPoints]

/-- A drawn character replaces what was in its cell. -/
theorem Fits.run_drawChar (h : Fits c) (ch : UInt8) (column row : ℕ) (hx : x < c.info.width)
    (hy : y < c.info.height) :
    run frame (drawChar c.info ch column row) (y * c.info.pixelsPerScanLine + x) =
      if x / 6 = column ∧ y / 9 = row then cellPixel c.info ch (x % 6) (y % 9)
      else frame (y * c.info.pixelsPerScanLine + x) := by
  rw [drawChar_eq, run_append, h.run_paint _ hx hy, h.run_clearCell _ _ hx hy, cellPixel]
  simp only [mem_glyphPoints]
  by_cases hcell : x / 6 = column ∧ y / 9 = row
  · simp only [hcell, and_self, true_and, if_true]
  · simp only [hcell, false_and, if_false]

/-! ### Scrolling -/

theorem Fits.text_le (h : Fits c) :
    c.columns * 6 ≤ c.info.width ∧ c.rows * 9 ≤ c.info.height := by
  rw [h.columns, h.rows]
  omega

theorem clearTextRow_eq (c : Fbcon) (row : ℕ) : clearTextRow c row =
    paint c.info (background c.info) ((List.range c.columns).flatMap fun column =>
      cellPoints column row) := by
  simp only [clearTextRow, clearCell_eq, paint, List.flatMap_assoc]

theorem mem_rowPoints {row : ℕ} : (x, y) ∈ ((List.range c.columns).flatMap fun column =>
    cellPoints column row) ↔ x < c.columns * 6 ∧ y / 9 = row := by
  simp only [List.mem_flatMap, List.mem_range, mem_cellPoints]
  constructor
  · rintro ⟨column, hcolumn, rfl, rfl⟩
    omega
  · rintro ⟨hx, rfl⟩
    exact ⟨x / 6, by omega, rfl, rfl⟩

/-- The copy loops move every row of pixels up by the height of a cell. -/
theorem Fits.scrollUp_eq (h : Fits c) : scrollUp c =
    copyRows c.info.pixelsPerScanLine (c.columns * 6) 9 (c.rows * 9 - 9) ++
      clearTextRow c (c.rows - 1) := by
  obtain ⟨hwidth, hheight⟩ := h.text_le
  rw [scrollUp, copyRows]
  congr 1
  rw [List.range'_eq_map_range, List.flatMap_map]
  refine List.flatMap_congr fun y hy => ?_
  have hy := List.mem_range.mp hy
  refine List.map_congr_left fun x hx => ?_
  have hx := List.mem_range.mp hx
  simp only [cellHeight, cellWidth] at hx hy ⊢
  rw [Nat.add_sub_cancel_left, h.pixelIndex_eq (by omega) (by omega),
    h.pixelIndex_eq (by omega) (by omega), Nat.add_comm 9 y]

theorem Fits.run_scrollUp (h : Fits c) (hx : x < c.info.width) (hy : y < c.info.height) :
    run frame (scrollUp c) (y * c.info.pixelsPerScanLine + x) =
      if x < c.columns * 6 ∧ y / 9 = c.rows - 1 then background c.info
      else if y < c.rows * 9 - 9 ∧ x < c.columns * 6 then
        frame ((y + 9) * c.info.pixelsPerScanLine + x)
      else frame (y * c.info.pixelsPerScanLine + x) := by
  have hwidth : c.columns * 6 ≤ c.info.pixelsPerScanLine :=
    Nat.le_trans h.text_le.1 h.stride
  rw [h.scrollUp_eq, run_append, clearTextRow_eq, h.run_paint _ hx hy,
    run_copyRows hwidth (Nat.lt_of_lt_of_le hx h.stride)]
  simp only [mem_rowPoints]

theorem Fits.inside_scrollUp (h : Fits c) : ∀ a ∈ scrollUp c, Inside c.info a := by
  obtain ⟨hwidth, hheight⟩ := h.text_le
  intro a ha
  rw [h.scrollUp_eq, List.mem_append] at ha
  rcases ha with ha | ha
  · simp only [copyRows, copyRow, List.mem_flatMap, List.mem_map, List.mem_range] at ha
    obtain ⟨y, hy, x, hx, rfl⟩ := ha
    intro i hi
    simp only [indices, List.mem_cons, List.not_mem_nil, or_false] at hi
    rcases hi with rfl | rfl
    · exact ⟨x, y, by omega, by omega, rfl⟩
    · exact ⟨x, y + 9, by omega, by omega, rfl⟩
  · rw [clearTextRow_eq] at ha
    exact h.inside_paint _ a ha

/-! ### Simulation -/

/-- The pixels show the grid, and the cursors are in the same row. -/
structure Pictures (c : Fbcon) (frame : ℕ → UInt32) (g : Grid) : Prop where
  fits : Fits c
  cursorY : c.cursorY = g.y
  y_lt : g.y < c.rows
  pixels : ∀ x y, x < c.info.width → y < c.info.height →
    frame (y * c.info.pixelsPerScanLine + x) = render c.info c.columns c.rows g.cells x y

/-- Between bytes the cursors are also in the same column. -/
structure Shows (c : Fbcon) (frame : ℕ → UInt32) (g : Grid) : Prop
    extends Pictures c frame g where
  cursorX : c.cursorX = g.x
  x_lt : g.x < c.columns

/-- What a step leaves as it was, and that it stays inside the screen. -/
structure Stays (c : Fbcon) (step : Fbcon × List (Access UInt32)) : Prop where
  info : step.1.info = c.info
  columns : step.1.columns = c.columns
  rows : step.1.rows = c.rows
  inside : ∀ a ∈ step.2, Inside c.info a

theorem Fits.congr (h : Fits c) {c' : Fbcon} (hinfo : c'.info = c.info)
    (hcolumns : c'.columns = c.columns) (hrows : c'.rows = c.rows) : Fits c' := by
  refine ⟨?_, ?_, ?_, ?_, ?_, ?_, ?_⟩
  · rw [hinfo]; exact h.base
  · rw [hinfo]; exact h.stride
  · rw [hinfo]; exact h.small
  · rw [hinfo, hcolumns]; exact h.columns
  · rw [hinfo, hrows]; exact h.rows
  · rw [hcolumns]; exact h.columnsPos
  · rw [hrows]; exact h.rowsPos

variable {g : Grid}

theorem render_set (info : FbInfo) {columns rows column row : ℕ} (hcolumn : column < columns)
    (hrow : row < rows) (ch : UInt8) (x y : ℕ) :
    render info columns rows (g.set column row ch).cells x y =
      if x / 6 = column ∧ y / 9 = row then cellPixel info ch (x % 6) (y % 9)
      else render info columns rows g.cells x y := by
  simp only [render, Grid.set]
  by_cases hcell : x / 6 = column ∧ y / 9 = row
  · rw [if_pos (by omega), if_pos hcell, if_pos hcell]
  · simp only [hcell, if_false]

/-- Scrolled cells are drawn as the scrolled drawing. -/
theorem render_scrolled (info : FbInfo) {columns rows : ℕ} (cells : ℕ → ℕ → UInt8) (x y : ℕ) :
    render info columns rows (Grid.scrolled rows cells) x y =
      if x < columns * 6 ∧ y / 9 = rows - 1 then background info
      else if y < rows * 9 - 9 ∧ x < columns * 6 then render info columns rows cells x (y + 9)
      else render info columns rows cells x y := by
  have hnext : (y + 9) / 9 = y / 9 + 1 ∧ (y + 9) % 9 = y % 9 := by omega
  simp only [render, Grid.scrolled]
  by_cases htext : x < columns * 6 ∧ y < rows * 9
  · rw [if_pos htext]
    by_cases hlast : y / 9 = rows - 1
    · have hrow : ¬y / 9 + 1 < rows := by omega
      rw [if_neg hrow, if_pos ⟨htext.1, hlast⟩, cellPixel_blank]
    · have hrow : y / 9 + 1 < rows := by omega
      have hcopied : y < rows * 9 - 9 ∧ x < columns * 6 := by omega
      have hsource : x < columns * 6 ∧ y + 9 < rows * 9 := by omega
      rw [if_pos hrow, if_neg (fun h => hlast h.2), if_pos hcopied, if_pos hsource, hnext.1,
        hnext.2]
  · rw [if_neg htext]
    by_cases hlast : x < columns * 6 ∧ y / 9 = rows - 1
    · rw [if_pos hlast]
    · rw [if_neg hlast, if_neg (by omega), if_neg htext]

theorem Pictures.newline (h : Pictures c frame g) : Stays c (newline c) ∧
    Shows (newline c).1 (run frame (newline c).2) (g.lineFeed c.rows) := by
  have hrows := h.fits.rowsPos
  unfold Video.newline Grid.lineFeed
  rw [h.cursorY]
  by_cases hroom : g.y + 1 < c.rows
  · rw [if_pos hroom, if_pos hroom]
    exact ⟨⟨rfl, rfl, rfl, by simp⟩, ⟨h.fits.congr rfl rfl rfl, rfl, hroom, h.pixels⟩, rfl,
      h.fits.columnsPos⟩
  · rw [if_neg hroom, if_neg hroom]
    refine ⟨⟨rfl, rfl, rfl, h.fits.inside_scrollUp⟩,
      ⟨h.fits.congr rfl rfl rfl, rfl, Nat.sub_one_lt_of_lt hrows, ?_⟩, rfl, h.fits.columnsPos⟩
    intro x y hx hy
    rw [h.fits.run_scrollUp hx hy, render_scrolled]
    -- A pixel that is copied comes from the screen.
    have hbelow : y < c.rows * 9 - 9 → y + 9 < c.info.height := by
      have := h.fits.text_le.2
      omega
    split_ifs with hlast hcopy
    · rfl
    · exact h.pixels x (y + 9) hx (hbelow hcopy.1)
    · exact h.pixels x y hx hy

theorem Shows.backspace (h : Shows c frame g) : Stays c (backspace c) ∧
    Shows (backspace c).1 (run frame (backspace c).2)
      (if g.x = 0 then g else { g.set (g.x - 1) g.y blank with x := g.x - 1 }) := by
  unfold Video.backspace
  rw [h.cursorX, h.cursorY]
  by_cases hzero : g.x = 0
  · rw [if_pos hzero, if_pos hzero]
    exact ⟨⟨rfl, rfl, rfl, by simp⟩, h⟩
  · have hcolumn : g.x - 1 < c.columns := Nat.lt_of_le_of_lt (Nat.sub_le _ _) h.x_lt
    rw [if_neg hzero, if_neg hzero]
    refine ⟨⟨rfl, rfl, rfl, ?_⟩, ⟨h.fits.congr rfl rfl rfl, rfl, h.y_lt, ?_⟩, rfl, hcolumn⟩
    · rw [clearCell_eq]
      exact h.fits.inside_paint _
    · intro x y hx hy
      rw [h.fits.run_clearCell _ _ hx hy, render_set c.info hcolumn h.y_lt, cellPixel_blank,
        h.pixels x y hx hy]

/-- A character is drawn before the cursor moves. -/
theorem Shows.draw (h : Shows c frame g) (ch : UInt8) :
    (∀ a ∈ drawChar c.info ch c.cursorX c.cursorY, Inside c.info a) ∧
    Pictures { c with cursorX := c.cursorX + 1 }
      (run frame (drawChar c.info ch c.cursorX c.cursorY))
      { g.set g.x g.y ch with x := g.x + 1 } := by
  rw [h.cursorX, h.cursorY]
  refine ⟨?_, h.fits.congr rfl rfl rfl, rfl, h.y_lt, fun x y hx hy => ?_⟩
  · intro a ha
    rw [drawChar_eq, clearCell_eq, List.mem_append] at ha
    exact ha.elim (h.fits.inside_paint _ a) (h.fits.inside_paint _ a)
  · rw [h.fits.run_drawChar ch _ _ hx hy, render_set c.info h.x_lt h.y_lt, h.pixels x y hx hy]

/-- Every byte does to the pixels what it does to the grid. -/
theorem Shows.putc (h : Shows c frame g) (ch : UInt8) : Stays c (fbconPutc c ch) ∧
    Shows (fbconPutc c ch).1 (run frame (fbconPutc c ch).2) (g.put c.columns c.rows ch) := by
  have hready : ¬(c.info.base = false ∨ c.rows = 0 ∨ c.columns = 0) := by
    simp only [h.fits.base, Bool.true_eq_false, false_or]
    exact not_or.mpr ⟨Nat.pos_iff_ne_zero.mp h.fits.rowsPos, Nat.pos_iff_ne_zero.mp h.fits.columnsPos⟩
  unfold fbconPutc Grid.put
  rw [if_neg hready]
  by_cases hcr : ch = asciiCr
  · rw [if_pos hcr, if_pos hcr]
    exact ⟨⟨rfl, rfl, rfl, by simp⟩, h⟩
  · rw [if_neg hcr, if_neg hcr]
    by_cases hbs : ch = asciiBs
    · rw [if_pos hbs, if_pos hbs]
      exact h.backspace
    · rw [if_neg hbs, if_neg hbs]
      by_cases hlf : ch = asciiLf
      · rw [if_pos hlf, if_pos hlf]
        exact h.newline
      · rw [if_neg hlf, if_neg hlf]
        obtain ⟨hinside, hdrawn⟩ := h.draw ch
        dsimp only
        by_cases hwrap : c.columns ≤ c.cursorX + 1
        · obtain ⟨hstays, hshows⟩ := hdrawn.newline
          rw [if_pos hwrap, if_pos (h.cursorX ▸ hwrap)]
          refine ⟨⟨hstays.info, hstays.columns, hstays.rows, fun a ha => ?_⟩, ?_⟩
          · exact (List.mem_append.mp ha).elim (hinside a) (hstays.inside a)
          · rw [run_append]
            exact hshows
        · rw [if_neg hwrap, if_neg (h.cursorX ▸ hwrap)]
          refine ⟨⟨rfl, rfl, rfl, hinside⟩, hdrawn, congrArg (· + 1) h.cursorX, ?_⟩
          rw [h.cursorX] at hwrap
          exact Nat.not_le.mp hwrap

theorem Shows.write (h : Shows c frame g) (text : List UInt8) : Stays c (fbconWrite c text) ∧
    Shows (fbconWrite c text).1 (run frame (fbconWrite c text).2)
      (text.foldl (Grid.put c.columns c.rows) g) := by
  induction text generalizing c frame g with
  | nil => exact ⟨⟨rfl, rfl, rfl, by simp [fbconWrite]⟩, h⟩
  | cons ch text ih =>
    obtain ⟨hstays, hshows⟩ := h.putc ch
    obtain ⟨hstays', hshows'⟩ := ih hshows
    rw [hstays.columns, hstays.rows] at hshows'
    simp only [fbconWrite, List.foldl_cons, run_append]
    refine ⟨⟨hstays'.info.trans hstays.info, hstays'.columns.trans hstays.columns,
      hstays'.rows.trans hstays.rows, fun a ha => ?_⟩, hshows'⟩
    rcases List.mem_append.mp ha with ha | ha
    · exact hstays.inside a ha
    · exact hstays.info ▸ hstays'.inside a ha

theorem clearScreen_eq (info : FbInfo) : clearScreen info = paint info (background info)
    ((List.range info.height).flatMap fun y => (List.range info.width).map fun x => (x, y)) := by
  simp only [clearScreen, paint, List.flatMap_assoc, List.flatMap_map]
  rfl

theorem render_start (info : FbInfo) (columns rows x y : ℕ) :
    render info columns rows Grid.start.cells x y = background info := by
  unfold render
  split_ifs
  · exact cellPixel_blank info _ _
  · rfl

/-- An accepted framebuffer starts out blank. -/
theorem fbconInit_shows {info : FbInfo} (hinit : (fbconInit c (some info)).2.2 = 0)
    (hstride : info.width ≤ info.pixelsPerScanLine)
    (hsmall : info.height * info.pixelsPerScanLine < 2 ^ 32) :
    (fbconInit c (some info)).1 = ⟨info, 0, 0, info.width / 6, info.height / 9⟩ ∧
    (∀ a ∈ (fbconInit c (some info)).2.1, Inside info a) ∧
    Shows (fbconInit c (some info)).1 (run frame (fbconInit c (some info)).2.1) .start := by
  have hrefused : (-Errno.inval : ℤ) ≠ 0 := by decide
  unfold fbconInit at hinit ⊢
  dsimp only at hinit ⊢
  split_ifs at hinit with hbad hnone
  · exact absurd hinit hrefused
  · exact absurd hinit hrefused
  · rw [if_neg hbad, if_neg hnone]
    have hfits : Fits ⟨info, 0, 0, info.width / cellWidth, info.height / cellHeight⟩ := by
      refine ⟨?_, hstride, hsmall, rfl, rfl, ?_, ?_⟩
      · exact Bool.not_eq_false _ ▸ fun h => hbad (.inl h)
      · exact Nat.pos_of_ne_zero fun h => hnone (.inl h)
      · exact Nat.pos_of_ne_zero fun h => hnone (.inr h)
    refine ⟨rfl, ?_, ⟨hfits, rfl, hfits.rowsPos, fun x y hx hy => ?_⟩, rfl, hfits.columnsPos⟩
    · rw [clearScreen_eq]
      exact hfits.inside_paint _
    · rw [clearScreen_eq, hfits.run_paint _ hx hy, if_pos, render_start]
      simp only [List.mem_flatMap, List.mem_map, List.mem_range]
      exact ⟨y, hy, x, hx, rfl⟩

end

/-- After any bytes, the visible pixels are the drawing of the grid that the bytes describe,
background outside the text area, and all other pixels are as before; the cursors agree and lie
on the grid; and every index that was read or written lies within the framebuffer. -/
theorem fbcon_simulates_grid (c : Fbcon) (info : FbInfo) (frame : ℕ → UInt32)
    (hinit : (fbconInit c (some info)).2.2 = 0) (hstride : info.width ≤ info.pixelsPerScanLine)
    (hsmall : info.height * info.pixelsPerScanLine < 2 ^ 32) (text : List UInt8) :
    ∃ g c' accesses,
      text.foldl (Grid.put (info.width / 6) (info.height / 9)) .start = g ∧
      (fbconWrite (fbconInit c (some info)).1 text).1 = c' ∧
      (fbconInit c (some info)).2.1 ++ (fbconWrite (fbconInit c (some info)).1 text).2 = accesses ∧
      (∀ x y, x < info.width → y < info.height →
        run frame accesses (y * info.pixelsPerScanLine + x) =
          render info (info.width / 6) (info.height / 9) g.cells x y) ∧
      (∀ x y, x < info.width → y < info.height →
        info.width / 6 * 6 ≤ x ∨ info.height / 9 * 9 ≤ y →
        run frame accesses (y * info.pixelsPerScanLine + x) = pixelColor info 0 0 0) ∧
      (∀ i, (∀ x y, x < info.width → y < info.height → i ≠ y * info.pixelsPerScanLine + x) →
        run frame accesses i = frame i) ∧
      c'.cursorX = g.x ∧ c'.cursorY = g.y ∧ g.x < info.width / 6 ∧ g.y < info.height / 9 ∧
      ∀ a ∈ accesses, ∀ i ∈ a.indices, i < info.height * info.pixelsPerScanLine := by
  obtain ⟨hc, hinside, hshows⟩ := @fbconInit_shows c frame info hinit hstride hsmall
  generalize fbconInit c (some info) = started at hc hinside hshows
  obtain ⟨c, cleared, ret⟩ := started
  obtain rfl : c = ⟨info, 0, 0, info.width / 6, info.height / 9⟩ := hc
  have hfits := hshows.fits
  obtain ⟨hstays, hshown⟩ := hshows.write text
  have hpixels := hshown.pixels
  have hx_lt := hshown.x_lt
  have hy_lt := hshown.y_lt
  rw [hstays.info, hstays.columns, hstays.rows] at hpixels
  rw [hstays.columns] at hx_lt
  rw [hstays.rows] at hy_lt
  dsimp only at hpixels hx_lt hy_lt hinside hstays ⊢
  have hall : ∀ a ∈ cleared ++ (fbconWrite ⟨info, 0, 0, info.width / 6, info.height / 9⟩ text).2,
      Inside info a := by
    intro a ha
    exact (List.mem_append.mp ha).elim (hinside a) (hstays.inside a)
  refine ⟨_, _, _, rfl, rfl, rfl, fun x y hx hy => ?_, fun x y hx hy hout => ?_, fun i hi => ?_,
    hshown.cursorX, hshown.cursorY, hx_lt, hy_lt, fun a ha i hi => ?_⟩
  · rw [run_append]
    exact hpixels x y hx hy
  · rw [run_append, hpixels x y hx hy, render, if_neg (by omega)]
    rfl
  · refine run_of_forall_ne fun a ha he => ?_
    obtain ⟨x, y, hx, hy, htarget⟩ := hall a ha a.target (by cases a <;> simp [target, indices])
    exact hi x y hx hy (he.trans htarget)
  · obtain ⟨x, y, hx, hy, rfl⟩ := hall a ha i hi
    exact hfits.index_lt hx hy

/-- A screen of two cells in one row. -/
def twoCells : FbInfo := ⟨true, 13, 10, 16, 1⟩

def noConsole : Fbcon := ⟨⟨false, 0, 0, 0, 0⟩, 0, 0, 0, 0⟩

/-- A pixel of the letter `A`, drawn after a letter that was deleted. -/
theorem fbcon_simulates_grid_letter :
    run (fun _ => 0) ((fbconInit noConsole (some twoCells)).2.1 ++
      (fbconWrite (fbconInit noConsole (some twoCells)).1 [0x42, 8, 0x41]).2) (1 * 16 + 1) =
      0xdcdcdc := by
  obtain ⟨g, c', accesses, hg, -, rfl, hpixels, -⟩ := fbcon_simulates_grid noConsole twoCells
    (fun _ => 0) rfl (by decide) (by decide) [0x42, 8, 0x41]
  rw [show 1 * 16 + 1 = 1 * twoCells.pixelsPerScanLine + 1 from rfl,
    hpixels 1 1 (by decide) (by decide), ← hg]
  rfl

end Tianole.Video
