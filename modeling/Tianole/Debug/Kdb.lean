import Tianole.Input.EventFifo
import Tianole.Lib.Terminated
import Tianole.Printk.Numerals
import Tianole.Tty.Keymap

/-! The command interpreter of `kernel/debug/kdb.c`. -/
namespace Tianole.Debug
open Input Numeral Tty
open Printk (ascii ttyWriteString kdbPrintU64Decimal)

/-! ### The functions -/

/-- Ways in which a command does not return: a read behind the end of the line buffer, or a failure
of the decimal printer. -/
inductive KdbStop where
  | outside
  | digits (stop : Printk.Stop)
  deriving DecidableEq, Repr

/-- What the calls that a command makes return. -/
structure Observed where
  timerTicks : UInt64
  inputDroppedEvents : UInt64
  ttyDroppedLines : UInt64
  inputLastEvent : Except ℤ InputEvent

def orOutside {α : Type} : Option α → Except KdbStop α
  | some a => .ok a
  | none => .error .outside

/-- A literal with its terminator. -/
def literal (text : String) : List UInt8 := ascii text ++ [0]

def isBlank (ch : UInt8) : Bool := ch == 0x20 || ch == 0x09

/-- Pointers are what lies behind them. -/
def kdbStreq (left right : List UInt8) : Except KdbStop Bool :=
  orOutside (Terminated.same 0 left right)

def kdbStartsWith (text start : List UInt8) : Except KdbStop Bool :=
  orOutside (Terminated.starts 0 start text)

def kdbSkipSpaces (line : List UInt8) : Except KdbStop (List UInt8) :=
  orOutside (Terminated.skip isBlank line)

/-- `*pointer`. -/
def deref (pointer : List UInt8) : Except KdbStop UInt8 := orOutside pointer.head?

/-- `tty_write_string` of text in the line buffer. -/
def writePointer (console pointer : List UInt8) : Except KdbStop (List UInt8) :=
  (orOutside (Terminated.text 0 pointer)).map (ttyWriteString console)

def writeU64 (console : List UInt8) (value : ℕ) : Except KdbStop (List UInt8) :=
  (kdbPrintU64Decimal console value).mapError .digits

def helpLines : List String :=
  ["commands:\n", "  help        show this help\n", "  ticks       show timer ticks\n",
   "  drops       show input and line drops\n",
   "  keys        show the most recent input event\n", "  echo TEXT   print TEXT\n"]

def kdbPrintHelp (console : List UInt8) : List UInt8 :=
  helpLines.foldl (fun console line => ttyWriteString console (ascii line)) console

def escaped (ch : UInt8) : List UInt8 :=
  if ch = 0x1b then ascii "\\e"
  else if ch = newline then ascii "\\n"
  else if ch = 0x09 then ascii "\\t"
  else if ch = backspace then ascii "\\b"
  else [ch]

def kdbPrintEscapedBytes (console bytes : List UInt8) : List UInt8 :=
  bytes.foldl (fun console ch => ttyWriteString console (escaped ch)) console

def kdbPrintTicks (console : List UInt8) (seen : Observed) : Except KdbStop (List UInt8) := do
  let console := ttyWriteString console (ascii "ticks=")
  let console ← writeU64 console seen.timerTicks.toNat
  pure (ttyWriteString console (ascii "\n"))

def kdbPrintDrops (console : List UInt8) (seen : Observed) : Except KdbStop (List UInt8) := do
  let console := ttyWriteString console (ascii "input_drops=")
  let console ← writeU64 console seen.inputDroppedEvents.toNat
  let console := ttyWriteString console (ascii " line_drops=")
  let console ← writeU64 console seen.ttyDroppedLines.toNat
  pure (ttyWriteString console (ascii "\n"))

/-- `(unsigned long long)value` for an `int32_t`. -/
def widened (value : Int32) : UInt64 := value.toInt64.toUInt64

/-- The end of `kdb_print_keys`, for an event with a symbol. -/
def printKeysym (console : List UInt8) (sym : TtyKeysym) : Except KdbStop (List UInt8) := do
  let console := ttyWriteString console (ascii " keysym=")
  let console ← writeU64 console sym.value.toNat
  match ttyKeysymToUtf8 (some sym) (some fun _ => 0) 4 with
  | (length + 1, some bytes) =>
      let console := ttyWriteString console (ascii " utf8=")
      pure (console ++ ttyWrite (written bytes (length + 1)))
  | _ =>
      match ttyKeysymFunctionString (some sym) with
      | some function =>
          pure (kdbPrintEscapedBytes (ttyWriteString console (ascii " func=")) function)
      | none => pure console

def kdbPrintKeys (console : List UInt8) (seen : Observed) : Except KdbStop (List UInt8) :=
  match seen.inputLastEvent with
  | .error _ => .ok (ttyWriteString console (ascii "no input event\n"))
  | .ok event => do
      let console := ttyWriteString console (ascii "key code=")
      let console ← writeU64 console event.code.toNat
      let console := ttyWriteString console (ascii " value=")
      let console ← writeU64 console (widened event.value).toNat
      let console := ttyWriteString console (ascii " modifiers=")
      let console ← writeU64 console event.modifiers.toNat
      let console ← match ttyKeyEventToKeysym event.code event.modifiers.toBitVec with
        | some sym => printKeysym console sym
        | none => pure console
      pure (ttyWriteString console (ascii "\n"))

def unknownCommand (console command : List UInt8) : Except KdbStop (List UInt8) := do
  let console := ttyWriteString console (ascii "unknown command: ")
  let console ← writePointer console command
  pure (ttyWriteString console (ascii "\n"))

/-- The branch for a command that starts with `echo`. -/
def echoCommand (console command : List UInt8) : Except KdbStop (List UInt8) := do
  let text := command.drop 4
  let first ← deref text
  if first ≠ 0 ∧ isBlank first = false then unknownCommand console command
  else
    let console ← writePointer console (← kdbSkipSpaces text)
    pure (ttyWriteString console (ascii "\n"))

def kdbRunCommand (seen : Observed) (console line : List UInt8) :
    Except KdbStop (List UInt8) := do
  let command ← kdbSkipSpaces line
  if (← deref command) = 0 then pure console
  else if ← kdbStreq command (literal "help") then pure (kdbPrintHelp console)
  else if ← kdbStreq command (literal "ticks") then kdbPrintTicks console seen
  else if ← kdbStreq command (literal "drops") then kdbPrintDrops console seen
  else if ← kdbStreq command (literal "keys") then kdbPrintKeys console seen
  else if ← kdbStartsWith command (literal "echo") then echoCommand console command
  else unknownCommand console command

/-! ### What the commands mean -/

inductive Command where
  | nothing
  | help
  | ticks
  | drops
  | keys
  | echo (text : List UInt8)
  | unknown (text : List UInt8)
  deriving DecidableEq, Repr

/-- The command of a line: what follows its leading blanks. -/
def Command.parse (line : List UInt8) : Command :=
  let command := line.dropWhile isBlank
  if command = [] then .nothing
  else if command = ascii "help" then .help
  else if command = ascii "ticks" then .ticks
  else if command = ascii "drops" then .drops
  else if command = ascii "keys" then .keys
  else if ascii "echo" <+: command ∧ (command.drop 4).head?.all isBlank then
    .echo ((command.drop 4).dropWhile isBlank)
  else .unknown command

def keysymText (sym : TtyKeysym) : List UInt8 :=
  ascii " keysym=" ++ numeral 10 sym.value.toNat ++
    match ttyKeysymToUtf8 (some sym) (some fun _ => 0) 4 with
    | (length + 1, some bytes) => ascii " utf8=" ++ written bytes (length + 1)
    | _ => match ttyKeysymFunctionString (some sym) with
      | some function => ascii " func=" ++ function.flatMap escaped
      | none => []

def keysText : Except ℤ InputEvent → List UInt8
  | .error _ => ascii "no input event\n"
  | .ok event =>
      ascii "key code=" ++ numeral 10 event.code.toNat ++ ascii " value=" ++
        numeral 10 (widened event.value).toNat ++ ascii " modifiers=" ++
        numeral 10 event.modifiers.toNat ++
        ((ttyKeyEventToKeysym event.code event.modifiers.toBitVec).elim [] keysymText) ++
        ascii "\n"

/-- What a command prints. -/
def Command.text (seen : Observed) : Command → List UInt8
  | nothing => []
  | help => helpLines.flatMap ascii
  | ticks => ascii "ticks=" ++ numeral 10 seen.timerTicks.toNat ++ ascii "\n"
  | drops => ascii "input_drops=" ++ numeral 10 seen.inputDroppedEvents.toNat ++
      ascii " line_drops=" ++ numeral 10 seen.ttyDroppedLines.toNat ++ ascii "\n"
  | keys => keysText seen.inputLastEvent
  | echo text => text ++ ascii "\n"
  | unknown text => ascii "unknown command: " ++ text ++ ascii "\n"

/-! ### The functions compute the meaning -/

section
variable {console line text rest : List UInt8} {seen : Observed}

theorem ttyWrite_append (a b : List UInt8) : ttyWrite (a ++ b) = ttyWrite a ++ ttyWrite b :=
  List.flatMap_append

theorem ttyWrite_of_notMem (h : newline ∉ text) : ttyWrite text = text := by
  unfold ttyWrite
  have hone : ∀ ch ∈ text, (if ch = newline then [0x0d, ch] else [ch]) = [ch] := by
    intro ch hch
    rw [if_neg]
    rintro rfl
    exact h hch
  rw [List.flatMap_congr hone, List.flatMap_singleton']

theorem ttyWrite_numeral (value : ℕ) : ttyWrite (numeral 10 value) = numeral 10 value :=
  ttyWrite_of_notMem (Printk.newline_not_mem_numeral value)

@[simp] theorem writeU64_eq {value : ℕ} (h : value < 2 ^ 64) :
    writeU64 console value = .ok (console ++ ttyWrite (numeral 10 value)) := by
  rw [writeU64, Printk.kdbPrintU64Decimal_eq console h, ttyWrite_numeral]
  rfl

theorem kdbSkipSpaces_eq (line rest : List UInt8) :
    kdbSkipSpaces (line ++ 0 :: rest) = .ok (line.dropWhile isBlank ++ 0 :: rest) := by
  rw [kdbSkipSpaces, Terminated.skip_append (by decide)]
  rfl

theorem kdbStreq_eq (hline : 0 ∉ line) {word : String} (hword : 0 ∉ ascii word) :
    kdbStreq (line ++ 0 :: rest) (literal word) = .ok (decide (line = ascii word)) := by
  rw [kdbStreq, literal, Terminated.same_append hline hword]
  rfl

theorem kdbStartsWith_eq (hline : 0 ∉ line) {word : String} (hword : 0 ∉ ascii word) :
    kdbStartsWith (line ++ 0 :: rest) (literal word) = .ok (decide (ascii word <+: line)) := by
  rw [kdbStartsWith, literal, Terminated.starts_append hline hword]
  rfl

theorem writePointer_eq (htext : 0 ∉ text) :
    writePointer console (text ++ 0 :: rest) = .ok (console ++ ttyWrite text) := by
  rw [writePointer, Terminated.text_append htext]
  rfl

theorem deref_eq (text rest : List UInt8) :
    deref (text ++ 0 :: rest) = .ok (text.head?.getD 0) := by
  cases text with
  | nil => rfl
  | cons ch text => rfl

theorem kdbPrintHelp_eq : kdbPrintHelp console = console ++ ttyWrite (Command.help.text seen) := by
  have hfold (lines : List String) (console : List UInt8) :
      lines.foldl (fun console line => ttyWriteString console (ascii line)) console =
        console ++ ttyWrite (lines.flatMap ascii) := by
    induction lines generalizing console with
    | nil => simp [ttyWrite]
    | cons line lines ih =>
      rw [List.foldl_cons, ih, List.flatMap_cons, ttyWrite_append, ttyWriteString,
        List.append_assoc]
  exact hfold helpLines console

theorem kdbPrintEscapedBytes_eq (console bytes : List UInt8) :
    kdbPrintEscapedBytes console bytes = console ++ ttyWrite (bytes.flatMap escaped) := by
  unfold kdbPrintEscapedBytes
  induction bytes generalizing console with
  | nil => simp [ttyWrite]
  | cons ch bytes ih =>
    rw [List.foldl_cons, ih, List.flatMap_cons, ttyWrite_append, ttyWriteString,
      List.append_assoc]

theorem kdbPrintTicks_eq : kdbPrintTicks console seen =
    .ok (console ++ ttyWrite (Command.ticks.text seen)) := by
  simp only [kdbPrintTicks, ttyWriteString, writeU64_eq seen.timerTicks.toNat_lt, Command.text,
    ttyWrite_append, List.append_assoc, bind, Except.bind, pure, Except.pure]

theorem kdbPrintDrops_eq : kdbPrintDrops console seen =
    .ok (console ++ ttyWrite (Command.drops.text seen)) := by
  simp only [kdbPrintDrops, ttyWriteString, writeU64_eq seen.inputDroppedEvents.toNat_lt,
    writeU64_eq seen.ttyDroppedLines.toNat_lt, Command.text, ttyWrite_append, List.append_assoc,
    bind, Except.bind, pure, Except.pure]

theorem printKeysym_eq (console : List UInt8) (sym : TtyKeysym) :
    printKeysym console sym = .ok (console ++ ttyWrite (keysymText sym)) := by
  have hvalue : sym.value.toNat < 2 ^ 64 := Nat.lt_trans sym.value.toNat_lt (by decide)
  unfold printKeysym keysymText
  simp only [ttyWriteString, writeU64_eq hvalue, bind, Except.bind, ttyWrite_append,
    List.append_assoc]
  split
  · simp only [pure, Except.pure, ttyWrite_append]
  · split
    · simp only [pure, Except.pure, kdbPrintEscapedBytes_eq, ttyWrite_append, List.append_assoc]
    · simp only [pure, Except.pure, ttyWrite, List.flatMap_nil, List.append_nil]

theorem kdbPrintKeys_eq : kdbPrintKeys console seen =
    .ok (console ++ ttyWrite (Command.keys.text seen)) := by
  unfold kdbPrintKeys Command.text keysText
  cases seen.inputLastEvent with
  | error e => rfl
  | ok event =>
    have hcode : event.code.toNat < 2 ^ 64 := Nat.lt_trans event.code.toNat_lt (by decide)
    have hmodifiers : event.modifiers.toNat < 2 ^ 64 :=
      Nat.lt_trans event.modifiers.toNat_lt (by decide)
    simp only [ttyWriteString, writeU64_eq hcode, writeU64_eq (widened event.value).toNat_lt,
      writeU64_eq hmodifiers, bind, Except.bind, ttyWrite_append, List.append_assoc]
    cases ttyKeyEventToKeysym event.code event.modifiers.toBitVec with
    | none => simp [pure, Except.pure, ttyWrite]
    | some sym =>
      simp only [printKeysym_eq, pure, Except.pure, Option.elim_some, List.append_assoc]

theorem unknownCommand_eq (htext : 0 ∉ text) : unknownCommand console (text ++ 0 :: rest) =
    .ok (console ++ ttyWrite ((Command.unknown text).text seen)) := by
  simp only [unknownCommand, ttyWriteString, writePointer_eq htext, Command.text, ttyWrite_append,
    List.append_assoc, bind, Except.bind, pure, Except.pure]

/-- After the name there is the end of the line, or a blank; or it is another command. -/
theorem echoCommand_eq (hcommand : 0 ∉ ascii "echo" ++ text) :
    echoCommand console (ascii "echo" ++ text ++ 0 :: rest) =
      .ok (console ++ ttyWrite (Command.text seen
        (if ((ascii "echo" ++ text).drop 4).head?.all isBlank then
          .echo (((ascii "echo" ++ text).drop 4).dropWhile isBlank)
        else .unknown (ascii "echo" ++ text)))) := by
  have htext : 0 ∉ text := fun hmem => hcommand (List.mem_append_right _ hmem)
  have hdrop (l : List UInt8) : (ascii "echo" ++ l).drop 4 = l := rfl
  have hfirst : (text.head?.getD 0 ≠ 0 ∧ isBlank (text.head?.getD 0) = false) ↔
      ¬ text.head?.all isBlank = true := by
    cases text with
    | nil => simp
    | cons ch text =>
      have hne : ch ≠ 0 := by
        rintro rfl
        exact htext List.mem_cons_self
      simp [hne]
  have hskipped : 0 ∉ text.dropWhile isBlank :=
    fun hmem => htext ((List.dropWhile_sublist _).subset hmem)
  rw [List.append_assoc]
  simp only [echoCommand, hdrop, deref_eq, kdbSkipSpaces_eq, writePointer_eq hskipped, bind,
    Except.bind, hfirst]
  by_cases hseparated : text.head?.all isBlank = true
  · rw [if_neg (not_not.mpr hseparated), if_pos hseparated]
    simp only [pure, Except.pure, ttyWriteString, Command.text, ttyWrite_append,
      List.append_assoc]
  · rw [if_pos hseparated, if_neg hseparated, ← List.append_assoc]
    exact unknownCommand_eq hcommand

theorem kdbRunCommand_eq (seen : Observed) (console rest : List UInt8) (hline : 0 ∉ line) :
    kdbRunCommand seen console (line ++ 0 :: rest) =
      .ok (console ++ ttyWrite ((Command.parse line).text seen)) := by
  have hcommand : 0 ∉ line.dropWhile isBlank :=
    fun hmem => hline ((List.dropWhile_sublist _).subset hmem)
  unfold kdbRunCommand Command.parse
  simp only [kdbSkipSpaces_eq, bind, Except.bind, deref_eq]
  generalize line.dropWhile isBlank = command at hcommand
  have hstreq (word : String) (hword : 0 ∉ ascii word) :
      kdbStreq (command ++ 0 :: rest) (literal word) = .ok (decide (command = ascii word)) :=
    kdbStreq_eq hcommand hword
  have hstarts : kdbStartsWith (command ++ 0 :: rest) (literal "echo") =
      .ok (decide (ascii "echo" <+: command)) :=
    kdbStartsWith_eq hcommand (by decide)
  by_cases hempty : command = []
  · simp [hempty, pure, Except.pure, Command.text, ttyWrite]
  · have hfirst : command.head?.getD 0 ≠ 0 := by
      cases command with
      | nil => exact absurd rfl hempty
      | cons ch command =>
        rintro rfl
        exact hcommand List.mem_cons_self
    rw [if_neg hfirst, if_neg hempty, hstreq "help" (by decide)]
    by_cases hhelp : command = ascii "help"
    · simp only [hhelp, decide_true, if_true, pure, Except.pure]
      rw [kdbPrintHelp_eq]
    simp only [hhelp, decide_false, if_false, Bool.false_eq_true, hstreq "ticks" (by decide)]
    by_cases hticks : command = ascii "ticks"
    · simp only [hticks, decide_true, if_true, kdbPrintTicks_eq]
    simp only [hticks, decide_false, if_false, Bool.false_eq_true, hstreq "drops" (by decide)]
    by_cases hdrops : command = ascii "drops"
    · simp only [hdrops, decide_true, if_true, kdbPrintDrops_eq]
    simp only [hdrops, decide_false, if_false, Bool.false_eq_true, hstreq "keys" (by decide)]
    by_cases hkeys : command = ascii "keys"
    · simp only [hkeys, decide_true, if_true, kdbPrintKeys_eq]
    simp only [hkeys, decide_false, if_false, Bool.false_eq_true, hstarts]
    by_cases hecho : ascii "echo" <+: command
    · obtain ⟨text, rfl⟩ := hecho
      simp only [List.prefix_append, decide_true, if_true, true_and]
      exact echoCommand_eq hcommand
    · simp only [hecho, decide_false, if_false, Bool.false_eq_true, false_and]
      exact unknownCommand_eq hcommand

end

/-- Whatever a buffer with a terminator in it holds, a command reads nothing behind the buffer, and
prints what the text before the terminator means. -/
theorem kdb_runs_commands (seen : Observed) (console : List UInt8) {buffer : List UInt8}
    (h : 0 ∈ buffer) : kdbRunCommand seen console buffer =
      .ok (console ++ ttyWrite ((Command.parse (buffer.takeWhile (· ≠ 0))).text seen)) := by
  obtain ⟨line, rest, rfl, hline⟩ := List.eq_append_cons_of_mem h
  have htext : (line ++ 0 :: rest).takeWhile (· ≠ 0) = line := by
    rw [List.takeWhile_append_of_pos]
    · simp
    · intro ch hch
      apply decide_eq_true
      rintro rfl
      exact hline hch
  rw [kdbRunCommand_eq seen console rest hline, htext]

/-- A command after blanks, and what an earlier line left in the buffer. -/
theorem kdb_runs_commands_echo :
    kdbRunCommand ⟨0, 0, 0, .error 0⟩ [] (ascii "  echo\thi\x00ello\x00") =
      .ok (ascii "hi\r\n") := by
  rw [kdb_runs_commands _ [] (by decide)]
  exact congrArg Except.ok (by decide +kernel)

end Tianole.Debug
