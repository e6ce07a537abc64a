import Tianole.Debug.Kdb
import Tianole.Input.Keyboard

/-! The way of a key stroke from the keyboard to the kernel debugger: the keyboard driver and its
worker, the input core, the thread of `kernel/console/input_console.c`, the line discipline and the
thread of `kernel/debug/kdb.c`, in any interleaving. -/
namespace Tianole.Console
open Input Tty Debug Work Runs
open Printk (ascii ttyWriteString)

/-! ### The threads -/

/-- The bytes that `input_console_deliver_key` hands to the terminal. -/
def inputConsoleDeliverKey (event : InputEvent) : List UInt8 :=
  if event.type ≠ inputEventKey ∨ event.value = 0 then []
  else symbolText (ttyKeyEventToKeysym event.code event.modifiers.toBitVec)

def kdbLineLength : ℕ := 128
def kdbPrompt : String := "tianole> "
def kdbBanner : String := "early kdb ready\n"

/-- `kdb_thread`: whether it has printed its first prompt, its buffer `line` and what it has written
to the consoles. Recorded along: the lines that it has run, and what their commands observed. -/
structure KdbThread where
  started : Bool
  line : ℕ → UInt8
  console : List UInt8
  ran : List (List UInt8 × Observed)

/-- All parts of the way. Of the input console thread: the bytes that it still has to hand to
`tty_receive_char`, and whether it is at the end of `tty_submit_edit_line`, after the lock. Recorded
along: the events that it has read, the reports that the input core refused, the bytes received by
the terminal, and the lines dropped there. -/
structure ConsoleSystem where
  pipeline : Pipeline
  queue : InputQueue
  terminal : Terminal
  chars : List UInt8
  clearing : Bool
  kdb : KdbThread
  delivered : List InputEvent
  refused : ℕ
  received : List UInt8
  refusedLines : ℕ

/-- `ps2_input_dev` once it is registered. -/
def ps2InputDev : InputDev := ⟨inputDeviceCapKey, 1, true⟩

inductive ConsoleStop where
  | work (stop : WorkStop)
  | inputConsoleReadFailed
  | kdbReadFailed
  | kdb (stop : KdbStop)
  deriving DecidableEq, Repr

inductive ConsoleAction where
  /-- The keyboard interrupt, the worker, or another user of the workqueue; `now` is what
  `timer_ticks` returns. -/
  | pipeline (act : PipelineAction) (now : UInt64)
  /-- The input console thread. -/
  | console
  /-- The debugger; `seen` is what the calls of its command return. -/
  | kdb (seen : Observed)

namespace ConsoleSystem

/-- One call of `input_report_key` by the driver. -/
def report (now : UInt64) (σ : ConsoleSystem) (r : Report) : ConsoleSystem :=
  let result := inputReportKey σ.queue (some ps2InputDev) r.key.code (if r.pressed then 1 else 0)
    (.ofBitVec r.modifiers) now
  { σ with
    queue := result.1
    refused := if result.2 = 0 then σ.refused else σ.refused + 1 }

/-- A step of the driver, with the reports that it makes. -/
def pipelineStep (σ : ConsoleSystem) (act : PipelineAction) (now : UInt64) :
    Except WorkStop ConsoleSystem :=
  (σ.pipeline.step act).map fun π =>
    (π.keyboard.decoder.reports.drop σ.pipeline.keyboard.decoder.reports.length).foldl (report now)
      { σ with pipeline := π }

/-- The terminal takes a byte. A newline is submitted under the lock; what follows the lock is a
step of its own. -/
def receive (σ : ConsoleSystem) (ch : UInt8) : ConsoleSystem :=
  if ch = newline then
    let submitted := ttySubmitLocked σ.terminal
    { σ with
      terminal := submitted.1
      clearing := true
      received := σ.received ++ [ch]
      refusedLines := if submitted.2 then σ.refusedLines else σ.refusedLines + 1 }
  else { σ with terminal := (ttyReceiveChar σ.terminal ch).1, received := σ.received ++ [ch] }

/-- `input_console_thread`; without an event it waits. -/
def consoleStep (σ : ConsoleSystem) : Except ConsoleStop ConsoleSystem :=
  if σ.clearing then
    .ok { σ with terminal := ttyClearEditLine σ.terminal, clearing := false }
  else match σ.chars with
    | ch :: chars => .ok { σ.receive ch with chars := chars }
    | [] =>
        if inputHasEvent σ.queue then
          match inputPopLocked σ.queue with
          | (queue, .ok event) => .ok { σ with
              queue := queue
              chars := inputConsoleDeliverKey event
              delivered := σ.delivered ++ [event] }
          | (_, .error _) => .error .inputConsoleReadFailed
        else .ok σ

/-- `kdb_thread`; without a line it waits. -/
def kdbStep (σ : ConsoleSystem) (seen : Observed) : Except ConsoleStop ConsoleSystem :=
  if σ.kdb.started = false then
    let console := ttyWriteString σ.kdb.console (ascii kdbBanner)
    .ok { σ with kdb := { σ.kdb with
      started := true
      console := ttyWriteString console (ascii kdbPrompt) } }
  else if ttyHasLine σ.terminal then
    let popped := ttyPopLineLocked σ.terminal ⟨kdbLineLength, by decide⟩
    if popped.2.1 < 0 then .error .kdbReadFailed
    else do
      let line := fill σ.kdb.line popped.2.2
      let buffer := written line kdbLineLength
      let console ← (kdbRunCommand seen σ.kdb.console buffer).mapError .kdb
      pure { σ with
        terminal := popped.1
        kdb := { σ.kdb with
          line := line
          console := ttyWriteString console (ascii kdbPrompt)
          ran := σ.kdb.ran ++ [((Terminated.text 0 buffer).getD [], seen)] } }
  else .ok σ

def step (σ : ConsoleSystem) : ConsoleAction → Except ConsoleStop ConsoleSystem
  | .pipeline act now => (σ.pipelineStep act now).mapError .work
  | .console => σ.consoleStep
  | .kdb seen => σ.kdbStep seen

def Admissible (σ : ConsoleSystem) : ConsoleAction → Prop
  | .pipeline act _ => σ.pipeline.Admissible act
  | _ => True

/-- After `ps2_keyboard_init`, `input_console_init` and `kdb_init`. -/
structure Initial (σ : ConsoleSystem) : Prop where
  pipeline : σ.pipeline.Initial
  queue : σ.queue.Started
  terminal : σ.terminal.Started
  console : σ.chars = [] ∧ σ.clearing = false
  kdb : σ.kdb.started = false ∧ σ.kdb.console = [] ∧ σ.kdb.ran = []
  start : σ.delivered = [] ∧ σ.refused = 0 ∧ σ.received = [] ∧ σ.refusedLines = 0

def Reachable : ConsoleSystem → Prop := Reach step Initial Admissible

/-- The lines that the debugger has run. -/
def lines (σ : ConsoleSystem) : List (List UInt8) := σ.kdb.ran.map Prod.fst

/-- How much has been lost on the way: bytes in the interrupt, reports in the input core, and lines
in the terminal. -/
def lost (σ : ConsoleSystem) : ℕ := σ.pipeline.rejected + σ.refused + σ.refusedLines

/-- Nothing is on the way. -/
structure AtRest (σ : ConsoleSystem) : Prop where
  raw : σ.pipeline.raw = []
  inHand : σ.pipeline.inHand = none
  events : σ.queue.events.count = 0
  chars : σ.chars = []
  clearing : σ.clearing = false
  lines : σ.terminal.lines.count = 0

instance (σ : ConsoleSystem) : Decidable σ.AtRest :=
  decidable_of_iff (σ.pipeline.raw = [] ∧ σ.pipeline.inHand = none ∧ σ.queue.events.count = 0 ∧
    σ.chars = [] ∧ σ.clearing = false ∧ σ.terminal.lines.count = 0)
    ⟨fun ⟨raw, inHand, events, chars, clearing, lines⟩ =>
      ⟨raw, inHand, events, chars, clearing, lines⟩,
    fun h => ⟨h.raw, h.inHand, h.events, h.chars, h.clearing, h.lines⟩⟩

end ConsoleSystem

/-- The lines that a text completes, and the line that it leaves unfinished. -/
def edited (text : List UInt8) : List (List UInt8) × List UInt8 :=
  text.foldl (fun e ch =>
    if ch = newline then (e.1 ++ [e.2], []) else (e.1, editChar e.2 ch)) ([], [])

/-- What the debugger prints in a session. -/
def sessionText (ran : List (List UInt8 × Observed)) : List UInt8 :=
  ascii kdbBanner ++ ascii kdbPrompt ++
    ran.flatMap fun e => (Command.parse e.1).text e.2 ++ ascii kdbPrompt

end Tianole.Console
