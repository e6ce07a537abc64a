import Mathlib.Data.List.Basic
import Mathlib.Data.List.Induction
import Mathlib.Data.List.Infix
import Mathlib.Tactic.SplitIfs
import Tianole.Tty.LineQueue
import Tianole.Video.TextGrid

/-! The edit line and its echo on the screen, with the framebuffer console as the only console. -/
namespace Tianole.Tty
open Video (Fbcon Grid Shows Stays fbconPutc blank)

/-! ### Echo -/

/-- The bytes that reach the consoles through `tty_write`: a newline goes out after a carriage
return. -/
def ttyWrite (buffer : List UInt8) : List UInt8 :=
  buffer.flatMap fun ch => if ch = newline then [0x0d, ch] else [ch]

def ttyEchoChar (ch : UInt8) : List UInt8 := ttyWrite [ch]

/-- What `tty_receive_char` echoes. -/
def ttyReceiveEcho (t : Terminal) (ch : UInt8) : List UInt8 :=
  let t := if t.ready = false then ttyInit t else t
  if ch = backspace then if t.editLength = 0 then [] else ttyEchoChar backspace
  else if ch = newline then ttyEchoChar newline
  else if t.editLength + 1 ≥ ttyLineLength then [] else ttyEchoChar ch

/-- How often a byte makes the console scroll. -/
def scrollsOf (c : Fbcon) (ch : UInt8) : ℕ :=
  if ch ≠ Video.asciiCr ∧ ch ≠ Video.asciiBs ∧ (ch = Video.asciiLf ∨ c.columns ≤ c.cursorX + 1) ∧
    c.rows ≤ c.cursorY + 1 then 1 else 0

/-- A terminal with its screen. Counted along: how often the screen has scrolled, and how long the
edit line has been. -/
structure Session where
  tty : Terminal
  con : Fbcon
  frame : ℕ → UInt32
  scrolls : ℕ
  longest : ℕ

namespace Session

def putc (s : Session) (ch : UInt8) : Session :=
  { s with con := (fbconPutc s.con ch).1, frame := Access.run s.frame (fbconPutc s.con ch).2,
           scrolls := s.scrolls + scrollsOf s.con ch }

def receive (s : Session) (ch : UInt8) : Session :=
  let tty := (ttyReceiveChar s.tty ch).1
  { (ttyReceiveEcho s.tty ch).foldl putc s with
    tty := tty, longest := max s.longest tty.editLength }

def type (s : Session) (chars : List UInt8) : Session := chars.foldl receive s

end Session

/-- Printable ASCII characters, and the backspace. -/
def Typed (ch : UInt8) : Prop := (0x20 ≤ ch ∧ ch ≤ 0x7e) ∨ ch = backspace

instance (ch : UInt8) : Decidable (Typed ch) := inferInstanceAs (Decidable (_ ∨ _))

/-- The grid shows a line of `len` characters that started at column `x` and row `y`, before the
screen scrolled. -/
structure LineShown (columns x y : ℕ) (line : ℕ → UInt8) (len scrolls longest : ℕ) (g : Grid) :
    Prop where
  cursorX : g.x = (x + len) % columns
  cursorY : g.y + scrolls = y + (x + len) / columns
  text : ∀ i < len, scrolls ≤ y + (x + i) / columns ∧
    g.cells ((x + i) % columns) (y + (x + i) / columns - scrolls) = line i
  blanks : ∀ j, len ≤ j → j < longest → (x + j) / columns = (x + len) / columns →
    g.cells ((x + j) % columns) g.y = blank

/-- What is on the screen from the start of the line to the cursor is the edit line, and what was
deleted after the cursor is blank. -/
def OnScreen (x y : ℕ) (s : Session) : Prop :=
  ∃ g, Shows s.con s.frame g ∧ LineShown s.con.columns x y s.tty.editLine s.tty.editLength
    s.scrolls s.longest g

/-! ### Positions -/

section
variable {n m c : ℕ}

theorem next_in_row (h : n % c + 1 < c) : (n + 1) / c = n / c ∧ (n + 1) % c = n % c + 1 := by
  have hn := Nat.mod_add_div n c
  exact (Nat.div_mod_unique (by omega)).mpr ⟨by omega, h⟩

theorem next_row (hc : 0 < c) (h : c ≤ n % c + 1) :
    (n + 1) / c = n / c + 1 ∧ (n + 1) % c = 0 := by
  have hn := Nat.mod_add_div n c
  have hlt := Nat.mod_lt n hc
  refine (Nat.div_mod_unique hc).mpr ⟨?_, hc⟩
  rw [Nat.mul_succ]
  omega

theorem eq_of_div_mod (hdiv : n / c = m / c) (hmod : n % c = m % c) : n = m := by
  rw [← Nat.mod_add_div n c, ← Nat.mod_add_div m c, hdiv, hmod]

end

/-! ### The grid -/

section
variable {columns rows x y len scrolls longest : ℕ} {line line' : ℕ → UInt8} {g : Grid}

/-- Everything that was deleted lies in the row of the cursor. -/
structure Trail (columns x y : ℕ) (line : ℕ → UInt8) (len scrolls longest : ℕ) (g : Grid) : Prop
    extends LineShown columns x y line len scrolls longest g where
  le_longest : len ≤ longest
  sameRow : ∀ j, len ≤ j → j < longest → (x + j) / columns = (x + len) / columns

/-- A backspace that finds the cursor in another than the first column. -/
theorem Trail.backspace (h : Trail columns x y line (len + 1) scrolls longest g) (hx : g.x ≠ 0)
    (hcolumns : 0 < columns) :
    Trail columns x y line len scrolls longest
      { g.set (g.x - 1) g.y blank with x := g.x - 1 } := by
  -- The last character stands in the row of the cursor, one column before it.
  have hlast : (x + len) % columns + 1 < columns := by
    by_contra hwrap
    have hnext := (next_row hcolumns (Nat.not_lt.mp hwrap)).2
    rw [h.cursorX, ← Nat.add_assoc] at hx
    exact hx hnext
  obtain ⟨hdiv, hmod⟩ := next_in_row hlast
  rw [Nat.add_assoc] at hdiv hmod
  have hcolumn : g.x - 1 = (x + len) % columns := by
    rw [h.cursorX, hmod, Nat.add_sub_cancel]
  have hrow : g.y + scrolls = y + (x + len) / columns := by rw [h.cursorY, hdiv]
  refine ⟨⟨hcolumn, hrow, fun i hi => ?_, fun j hj hj' hsame => ?_⟩,
    Nat.le_trans (Nat.le_succ _) h.le_longest, fun j hj hj' => ?_⟩
  · obtain ⟨hle, hcell⟩ := h.text i (Nat.lt_succ_of_lt hi)
    refine ⟨hle, ?_⟩
    have hne : ¬((x + i) % columns = g.x - 1 ∧ y + (x + i) / columns - scrolls = g.y) := by
      rintro ⟨hmod', hdiv'⟩
      have := eq_of_div_mod (n := x + i) (m := x + len) (c := columns) (by omega)
        (hmod'.trans hcolumn)
      omega
    simp only [Grid.set, hne, if_false]
    exact hcell
  · by_cases hend : j = len
    · subst hend
      simp [Grid.set, hcolumn]
    · have hold := h.blanks j (by omega) hj' (hsame.trans hdiv.symm)
      simp only [Grid.set]
      split_ifs
      · rfl
      · exact hold
  · by_cases hend : j = len
    · rw [hend]
    · exact (h.sameRow j (by omega) hj').trans hdiv

/-- The text with one more character at the cursor. -/
theorem Trail.set_text (h : Trail columns x y line len scrolls longest g) (ch : UInt8) :
    ∀ i < len + 1, scrolls ≤ y + (x + i) / columns ∧
      (g.set g.x g.y ch).cells ((x + i) % columns) (y + (x + i) / columns - scrolls) =
        Function.update line len ch i := by
  intro i hi
  have hcursor := h.cursorY
  by_cases hend : i = len
  · subst hend
    have hrow : y + (x + i) / columns - scrolls = g.y := by omega
    refine ⟨by omega, ?_⟩
    simp [Grid.set, hrow, h.cursorX]
  · obtain ⟨hle, hcell⟩ := h.text i (by omega)
    refine ⟨hle, ?_⟩
    have hne : ¬((x + i) % columns = g.x ∧ y + (x + i) / columns - scrolls = g.y) := by
      rintro ⟨hmod, hdiv⟩
      have := eq_of_div_mod (n := x + i) (m := x + len) (c := columns) (by omega)
        (hmod.trans h.cursorX)
      omega
    simp only [Grid.set, hne, if_false, Function.update_of_ne hend]
    exact hcell

/-- After a character that fills its row nothing was deleted in the row of the cursor. -/
theorem Trail.not_deleted (h : Trail columns x y line len scrolls longest g)
    (hnext : (x + (len + 1)) / columns = (x + len) / columns + 1) {j : ℕ} (hj : len + 1 ≤ j)
    (hj' : j < max longest (len + 1)) : (x + j) / columns = (x + len) / columns ∧
      (x + len) / columns + 1 ≤ (x + j) / columns := by
  refine ⟨h.sameRow j (by omega) (by omega), ?_⟩
  rw [← hnext]
  exact Nat.div_le_div_right (by omega)

theorem Trail.append (h : Trail columns x y line len scrolls longest g) (hcolumns : 0 < columns)
    (hy : g.y < rows) (henough : (x + (len + 1)) / columns < rows) (ch : UInt8) :
    Trail columns x y (Function.update line len ch) (len + 1)
      (scrolls + if columns ≤ g.x + 1 ∧ rows ≤ g.y + 1 then 1 else 0) (max longest (len + 1))
      (if columns ≤ g.x + 1 then
        Grid.lineFeed rows { g.set g.x g.y ch with x := g.x + 1 }
      else { g.set g.x g.y ch with x := g.x + 1 }) := by
  have htext := h.set_text ch
  have hcursor := h.cursorY
  have hlongest : len + 1 ≤ max longest (len + 1) := Nat.le_max_right _ _
  by_cases hwrap : columns ≤ g.x + 1
  · obtain ⟨hdiv, hmod⟩ := next_row hcolumns (h.cursorX ▸ hwrap)
    rw [Nat.add_assoc] at hdiv hmod
    have hnone {j : ℕ} (hj : len + 1 ≤ j) (hj' : j < max longest (len + 1)) : False := by
      have := h.not_deleted hdiv hj hj'
      omega
    rw [if_pos hwrap]
    by_cases hroom : g.y + 1 < rows
    · have hfeed : Grid.lineFeed rows { g.set g.x g.y ch with x := g.x + 1 } =
          ⟨(g.set g.x g.y ch).cells, 0, g.y + 1⟩ := if_pos hroom
      rw [hfeed, if_neg (by omega), Nat.add_zero]
      refine ⟨⟨hmod.symm, ?_, htext, fun j hj hj' _ => (hnone hj hj').elim⟩, hlongest,
        fun j hj hj' => (hnone hj hj').elim⟩
      simp only [hdiv]
      omega
    · -- The line still has its first row on the screen after the scroll.
      have hfeed : Grid.lineFeed rows { g.set g.x g.y ch with x := g.x + 1 } =
          ⟨Grid.scrolled rows (g.set g.x g.y ch).cells, 0, rows - 1⟩ := if_neg hroom
      rw [hfeed, if_pos (by omega)]
      refine ⟨⟨hmod.symm, ?_, fun i hi => ?_, fun j hj hj' _ => (hnone hj hj').elim⟩, hlongest,
        fun j hj hj' => (hnone hj hj').elim⟩
      · simp only [hdiv]
        omega
      · obtain ⟨hle, hcell⟩ := htext i hi
        have hrow : (x + i) / columns ≤ (x + len) / columns := Nat.div_le_div_right (by omega)
        have hpos := Nat.zero_le ((x + i) / columns)
        refine ⟨by omega, ?_⟩
        have hshift : y + (x + i) / columns - (scrolls + 1) + 1 =
            y + (x + i) / columns - scrolls := by omega
        simp only [Grid.scrolled, hshift]
        rw [if_pos (by omega)]
        exact hcell
  · obtain ⟨hdiv, hmod⟩ := next_in_row (n := x + len) (c := columns)
      (by rw [← h.cursorX]; omega)
    rw [Nat.add_assoc] at hdiv hmod
    have hsame {j : ℕ} (hj : len + 1 ≤ j) (hj' : j < max longest (len + 1)) :
        (x + j) / columns = (x + len) / columns := h.sameRow j (by omega) (by omega)
    rw [if_neg hwrap, if_neg (fun hboth => hwrap hboth.1), Nat.add_zero]
    refine ⟨⟨?_, ?_, htext, fun j hj hj' _ => ?_⟩, hlongest, fun j hj hj' => ?_⟩
    · simp only [hmod, h.cursorX]
    · simp only [hdiv]
      exact hcursor
    · have hne : (x + j) % columns ≠ g.x := by
        intro hmod'
        have := eq_of_div_mod (n := x + j) (m := x + len) (c := columns) (hsame hj hj')
          (hmod'.trans h.cursorX)
        omega
      have hold := h.blanks j (by omega) (by omega) (hsame hj hj')
      simp only [Grid.set, hne, false_and, if_false]
      exact hold
    · rw [hdiv]
      exact hsame hj hj'

end

/-! ### Sessions -/

section
variable {s : Session} {x y : ℕ} {ch : UInt8}

/-- Characters other than the controls that the terminal or the console handles. -/
structure Plain (ch : UInt8) : Prop where
  ne_backspace : ch ≠ backspace
  ne_newline : ch ≠ newline
  ne_cr : ch ≠ Video.asciiCr

theorem plain_of_printable (h : 0x20 ≤ ch) : Plain ch := by
  refine ⟨?_, ?_, ?_⟩ <;> (rintro rfl; exact absurd h (by decide))

theorem Plain.echo (h : Plain ch) : ttyEchoChar ch = [ch] := by
  simp [ttyEchoChar, ttyWrite, h.ne_newline]

theorem Plain.put (h : Plain ch) (columns rows : ℕ) (g : Grid) : g.put columns rows ch =
    if columns ≤ g.x + 1 then Grid.lineFeed rows { g.set g.x g.y ch with x := g.x + 1 }
    else { g.set g.x g.y ch with x := g.x + 1 } := by
  have hbs : ch ≠ Video.asciiBs := h.ne_backspace
  have hlf : ch ≠ Video.asciiLf := h.ne_newline
  rw [Grid.put, if_neg h.ne_cr, if_neg hbs, if_neg hlf]

theorem Plain.scrollsOf (h : Plain ch) (c : Fbcon) :
    scrollsOf c ch = if c.columns ≤ c.cursorX + 1 ∧ c.rows ≤ c.cursorY + 1 then 1 else 0 := by
  have hbs : ch ≠ Video.asciiBs := h.ne_backspace
  have hlf : ch ≠ Video.asciiLf := h.ne_newline
  simp [Tty.scrollsOf, h.ne_cr, hbs, hlf]

/-- The line is on the screen, and the terminal is ready. -/
structure Following (x y : ℕ) (s : Session) : Prop where
  ready : s.tty.ready = true
  shown : ∃ g, Shows s.con s.frame g ∧ Trail s.con.columns x y s.tty.editLine s.tty.editLength
    s.scrolls s.longest g

theorem Following.onScreen (h : Following x y s) : OnScreen x y s := by
  obtain ⟨g, hshows, htrail⟩ := h.shown
  exact ⟨g, hshows, htrail.toLineShown⟩

/-- Characters that are ignored change nothing. -/
theorem Following.ignored (h : Following x y s) (htty : (ttyReceiveChar s.tty ch).1 = s.tty)
    (hecho : ttyReceiveEcho s.tty ch = []) : s.receive ch = s := by
  obtain ⟨g, -, htrail⟩ := h.shown
  simp only [Session.receive, htty, hecho, List.foldl_nil, Nat.max_eq_left htrail.le_longest]

theorem receive_backspace_empty (hready : s.tty.ready = true) (hempty : s.tty.editLength = 0) :
    (ttyReceiveChar s.tty backspace).1 = s.tty ∧ ttyReceiveEcho s.tty backspace = [] := by
  simp [ttyReceiveChar, ttyReceiveEcho, hready, hempty, ttyHandleBackspace]

/-- A backspace takes the last character off the edit line and is echoed. -/
theorem receive_backspace (hready : s.tty.ready = true) (hne : s.tty.editLength ≠ 0) :
    s.receive backspace = { s.putc backspace with
      tty := { s.tty with editLength := s.tty.editLength - 1 },
      longest := max s.longest (s.tty.editLength - 1) } := by
  have hecho : ttyEchoChar backspace = [backspace] := by decide
  simp [Session.receive, ttyReceiveChar, ttyReceiveEcho, hready, hne, ttyHandleBackspace, hecho]

theorem receive_plain_full (hready : s.tty.ready = true) (h : Plain ch)
    (hfull : s.tty.editLength + 1 ≥ ttyLineLength) :
    (ttyReceiveChar s.tty ch).1 = s.tty ∧ ttyReceiveEcho s.tty ch = [] := by
  simp [ttyReceiveChar, ttyReceiveEcho, hready, h.ne_backspace, h.ne_newline, ttyAppend, hfull]

theorem receive_plain (hready : s.tty.ready = true) (h : Plain ch)
    (hroom : ¬s.tty.editLength + 1 ≥ ttyLineLength) :
    s.receive ch = { s.putc ch with
      tty := { s.tty with editLine := Function.update s.tty.editLine s.tty.editLength ch,
                          editLength := s.tty.editLength + 1 },
      longest := max s.longest (s.tty.editLength + 1) } := by
  simp [Session.receive, ttyReceiveChar, ttyReceiveEcho, hready, h.ne_backspace, h.ne_newline,
    ttyAppend, hroom, h.echo]

theorem Following.type_backspace (h : Following x y s) (hne : s.tty.editLength ≠ 0)
    (hcolumn : s.con.cursorX ≠ 0) : Following x y (s.receive backspace) := by
  obtain ⟨g, hshows, htrail⟩ := h.shown
  obtain ⟨hstays, hshown⟩ := hshows.putc backspace
  have hx : g.x ≠ 0 := hshows.cursorX ▸ hcolumn
  have hput : g.put s.con.columns s.con.rows backspace =
      { g.set (g.x - 1) g.y blank with x := g.x - 1 } := if_neg hx
  have hscroll : scrollsOf s.con backspace = 0 := by simp [scrollsOf, backspace, Video.asciiBs]
  obtain ⟨len, hlen⟩ : ∃ len, s.tty.editLength = len + 1 := Nat.exists_eq_succ_of_ne_zero hne
  rw [hlen] at htrail
  rw [receive_backspace h.ready hne]
  refine ⟨h.ready, _, hput ▸ hshown, ?_⟩
  have hafter := htrail.backspace hx hshows.fits.columnsPos
  simp only [Session.putc, hscroll, hstays.columns, hlen, Nat.add_sub_cancel, Nat.add_zero,
    Nat.max_eq_left hafter.le_longest]
  exact hafter

theorem Following.type_plain (h : Following x y s) (hplain : Plain ch)
    (hroom : ¬s.tty.editLength + 1 ≥ ttyLineLength)
    (henough : x + (s.tty.editLength + 1) < s.con.columns * s.con.rows) :
    Following x y (s.receive ch) := by
  obtain ⟨g, hshows, htrail⟩ := h.shown
  obtain ⟨hstays, hshown⟩ := hshows.putc ch
  rw [hplain.put] at hshown
  rw [receive_plain h.ready hplain hroom]
  refine ⟨h.ready, _, hshown, ?_⟩
  have hrow : (x + (s.tty.editLength + 1)) / s.con.columns < s.con.rows :=
    Nat.div_lt_of_lt_mul henough
  simp only [Session.putc, hplain.scrollsOf, hshows.cursorX, hshows.cursorY, hstays.columns]
  exact htrail.append hshows.fits.columnsPos hshows.y_lt hrow ch

/-- Every character but a backspace in the first column keeps the line on the screen. -/
theorem Following.receive (h : Following x y s) (htyped : Typed ch)
    (henough : x + (s.receive ch).tty.editLength < s.con.columns * s.con.rows)
    (hcolumn : ch = backspace → s.tty.editLength ≠ 0 → s.con.cursorX ≠ 0) :
    Following x y (s.receive ch) := by
  by_cases hback : ch = backspace
  · subst hback
    by_cases hempty : s.tty.editLength = 0
    · obtain ⟨htty, hecho⟩ := receive_backspace_empty h.ready hempty
      rw [h.ignored htty hecho]
      exact h
    · exact h.type_backspace hempty (hcolumn rfl hempty)
  · have hplain : Plain ch := plain_of_printable (htyped.resolve_right hback).1
    by_cases hfull : s.tty.editLength + 1 ≥ ttyLineLength
    · obtain ⟨htty, hecho⟩ := receive_plain_full h.ready hplain hfull
      rw [h.ignored htty hecho]
      exact h
    · rw [receive_plain h.ready hplain hfull] at henough
      exact h.type_plain hplain hfull henough

theorem fbconPutc_size (c : Fbcon) (ch : UInt8) :
    (fbconPutc c ch).1.columns = c.columns ∧ (fbconPutc c ch).1.rows = c.rows := by
  unfold fbconPutc Video.backspace Video.newline
  dsimp only
  split_ifs <;> exact ⟨rfl, rfl⟩

theorem putc_size (s : Session) (bytes : List UInt8) :
    (bytes.foldl Session.putc s).con.columns = s.con.columns ∧
      (bytes.foldl Session.putc s).con.rows = s.con.rows := by
  induction bytes generalizing s with
  | nil => exact ⟨rfl, rfl⟩
  | cons ch bytes ih =>
    obtain ⟨hcolumns, hrows⟩ := fbconPutc_size s.con ch
    exact ⟨(ih (s.putc ch)).1.trans hcolumns, (ih (s.putc ch)).2.trans hrows⟩

theorem type_size (s : Session) (chars : List UInt8) :
    (s.type chars).con.columns = s.con.columns ∧ (s.type chars).con.rows = s.con.rows := by
  induction chars generalizing s with
  | nil => exact ⟨rfl, rfl⟩
  | cons ch chars ih =>
    obtain ⟨hcolumns, hrows⟩ := putc_size s (ttyReceiveEcho s.tty ch)
    exact ⟨(ih (s.receive ch)).1.trans hcolumns, (ih (s.receive ch)).2.trans hrows⟩

theorem type_concat (s : Session) (chars : List UInt8) (ch : UInt8) :
    s.type (chars ++ [ch]) = (s.type chars).receive ch := List.foldl_concat ..

theorem ready_receive (hready : s.tty.ready = true) (ch : UInt8) :
    (s.receive ch).tty.ready = true := by
  simp only [Session.receive, ttyReceiveChar, hready, Bool.true_eq_false, if_false]
  unfold ttyHandleBackspace ttySubmitEditLine ttySubmitLocked ttyClearEditLine ttyAppend
  split_ifs <;> exact hready

theorem ready_type (hready : s.tty.ready = true) (chars : List UInt8) :
    (s.type chars).tty.ready = true := by
  induction chars generalizing s with
  | nil => exact hready
  | cons ch chars ih => exact ih (ready_receive hready ch)

/-- A backspace in the first column shortens the edit line but not what is on the screen. -/
theorem not_onScreen_backspace (h : OnScreen x y s) (hready : s.tty.ready = true)
    (hne : s.tty.editLength ≠ 0) (hcolumn : s.con.cursorX = 0) :
    ¬OnScreen x y (s.receive backspace) := by
  intro hafter
  have hputc : fbconPutc s.con backspace = (s.con, []) := by
    simp [fbconPutc, Video.backspace, hcolumn, backspace, Video.asciiBs, Video.asciiCr]
  have hscroll : scrollsOf s.con backspace = 0 := by simp [scrollsOf, backspace, Video.asciiBs]
  rw [receive_backspace hready hne, Session.putc, hputc, hscroll] at hafter
  obtain ⟨g, hshows, hline⟩ := h
  obtain ⟨g', hshows', hline'⟩ := hafter
  -- The cursor cannot be behind both lengths.
  have hmod : (x + s.tty.editLength) % s.con.columns =
      (x + (s.tty.editLength - 1)) % s.con.columns := by
    rw [← hline.cursorX, ← hshows.cursorX]
    exact hshows'.cursorX.trans hline'.cursorX
  have hdiv : (x + s.tty.editLength) / s.con.columns =
      (x + (s.tty.editLength - 1)) / s.con.columns := by
    have h₁ := hline.cursorY
    have h₂ := hline'.cursorY
    rw [← hshows.cursorY] at h₁
    rw [← hshows'.cursorY] at h₂
    exact Nat.add_left_cancel (h₁.symm.trans h₂)
  have := eq_of_div_mod hdiv hmod
  omega

end

/-- The state after a prompt: nothing has been typed, and the screen shows some grid. -/
structure Session.Prompt (s : Session) : Prop where
  ready : s.tty.ready = true
  empty : s.tty.editLength = 0
  scrolls : s.scrolls = 0
  longest : s.longest = 0
  shows : ∃ g, Shows s.con s.frame g

theorem Session.Prompt.following {s : Session} (h : s.Prompt) :
    Following s.con.cursorX s.con.cursorY s := by
  obtain ⟨g, hshows⟩ := h.shows
  have hx : s.con.cursorX < s.con.columns := hshows.cursorX ▸ hshows.x_lt
  refine ⟨h.ready, g, hshows, ⟨⟨?_, ?_, ?_, ?_⟩, ?_, ?_⟩⟩
  · rw [h.empty, Nat.add_zero, Nat.mod_eq_of_lt hx, hshows.cursorX]
  · rw [h.empty, h.scrolls, Nat.add_zero, Nat.add_zero, Nat.div_eq_of_lt hx, Nat.add_zero,
      hshows.cursorY]
  · rw [h.empty]
    exact fun i hi => absurd hi (Nat.not_lt_zero i)
  · rw [h.longest]
    exact fun j _ hj => absurd hj (Nat.not_lt_zero j)
  · rw [h.empty]
    exact Nat.zero_le _
  · rw [h.longest]
    exact fun j _ hj => absurd hj (Nat.not_lt_zero j)

/-- The edit line is on the screen after every character exactly if no backspace arrives while
the line is not empty and the cursor is in the first column. -/
theorem echo_shows_edit_line_iff {s : Session} (h : s.Prompt) (chars : List UInt8)
    (htyped : ∀ ch ∈ chars, Typed ch)
    (henough : ∀ pre, pre <+: chars →
      s.con.cursorX + (s.type pre).tty.editLength < s.con.columns * s.con.rows) :
    (∀ pre, pre <+: chars → OnScreen s.con.cursorX s.con.cursorY (s.type pre)) ↔
      ∀ pre, pre ++ [backspace] <+: chars → (s.type pre).tty.editLength ≠ 0 →
        (s.type pre).con.cursorX ≠ 0 := by
  constructor
  · intro hshown pre hpre hne hcolumn
    have hbefore := hshown pre ((List.prefix_append pre [backspace]).trans hpre)
    have hafter := hshown _ hpre
    rw [type_concat] at hafter
    exact not_onScreen_backspace hbefore (ready_type h.ready pre) hne hcolumn hafter
  · intro hcond
    suffices hall : ∀ pre, pre <+: chars → Following s.con.cursorX s.con.cursorY (s.type pre) from
      fun pre hpre => (hall pre hpre).onScreen
    intro pre
    -- Character by character, from the left.
    induction pre using List.reverseRecOn with
    | nil => exact fun _ => h.following
    | append_singleton pre ch ih =>
      intro hpre
      have hbefore : pre <+: chars := (List.prefix_append pre [ch]).trans hpre
      obtain ⟨hcolumns, hrows⟩ := type_size s pre
      have hroom := henough _ hpre
      rw [type_concat] at hroom ⊢
      rw [← hcolumns, ← hrows] at hroom
      refine (ih hbefore).receive (htyped ch (hpre.subset (by simp))) hroom ?_
      rintro rfl
      exact hcond pre hpre

/-- A terminal and a screen that have just been initialised. -/
def Session.fresh (t : Terminal) (c : Fbcon) (info : Video.FbInfo) (frame : ℕ → UInt32) :
    Session where
  tty := ttyInit t
  con := (Video.fbconInit c (some info)).1
  frame := Access.run frame (Video.fbconInit c (some info)).2.1
  scrolls := 0
  longest := 0

theorem Session.fresh_prompt {t : Terminal} (ht : t.ready = false) {c : Fbcon}
    {info : Video.FbInfo} (frame : ℕ → UInt32)
    (hinit : (Video.fbconInit c (some info)).2.2 = 0)
    (hstride : info.width ≤ info.pixelsPerScanLine)
    (hsmall : info.height * info.pixelsPerScanLine < 2 ^ 32) :
    (Session.fresh t c info frame).Prompt where
  ready := by simp [Session.fresh, ttyInit, ht]
  empty := by simp [Session.fresh, ttyInit, ht]
  scrolls := rfl
  longest := rfl
  shows := ⟨.start, (Video.fbconInit_shows hinit hstride hsmall).2.2⟩

/-- A screen of two columns and two rows. -/
def smallSession : Session :=
  .fresh ⟨.empty fun _ => ⟨fun _ => 0, 0⟩, 0, fun _ => 0, 0, false⟩ Video.noConsole
    ⟨true, 13, 20, 16, 1⟩ fun _ => 0

theorem smallSession_prompt : smallSession.Prompt :=
  Session.fresh_prompt rfl _ rfl (by decide) (by decide)

/-- A character that is typed and deleted within a row. -/
theorem echo_shows_edit_line_iff_row :
    OnScreen 0 0 (smallSession.type [0x61, backspace]) := by
  have htyped : ∀ ch ∈ [0x61, backspace], Typed ch := by
    rw [List.forall_mem_cons, List.forall_mem_singleton]
    decide
  refine (echo_shows_edit_line_iff smallSession_prompt [0x61, backspace] htyped ?_).mpr ?_
    [0x61, backspace] (List.prefix_refl _)
  · intro pre hpre
    rw [← List.mem_inits] at hpre
    revert pre
    decide
  · -- The only backspace follows the character, in the second column.
    intro pre hpre
    obtain rfl : pre = [0x61] := by
      have hlen := hpre.length_le
      obtain ⟨rest, hrest⟩ := hpre
      rcases pre with _ | ⟨a, _ | ⟨b, pre⟩⟩
      · cases hrest
      · cases hrest
        rfl
      · simp at hlen
    decide

/-- The characters `a`, `b` and a backspace: the second fills the row, so that the cursor is in
the first column when it is to be deleted. -/
theorem echo_backspace_after_wrap : smallSession.Prompt ∧
    (∀ ch ∈ [0x61, 0x62, backspace], Typed ch) ∧
    (∀ pre, pre <+: [0x61, 0x62, backspace] →
      smallSession.con.cursorX + (smallSession.type pre).tty.editLength <
        smallSession.con.columns * smallSession.con.rows) ∧
    ¬OnScreen smallSession.con.cursorX smallSession.con.cursorY
      (smallSession.type [0x61, 0x62, backspace]) := by
  refine ⟨smallSession_prompt, ?_, ?_, ?_⟩
  · rw [List.forall_mem_cons, List.forall_mem_cons, List.forall_mem_singleton]
    decide
  · intro pre hpre
    rw [← List.mem_inits] at hpre
    revert pre
    decide
  · rintro ⟨g, hshows, hline⟩
    have hcursor := hshows.cursorX.trans hline.cursorX
    exact absurd hcursor (by decide)

end Tianole.Tty
