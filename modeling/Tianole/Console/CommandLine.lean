import Tianole.Console.InputConsole

/-! What reaches the kernel debugger of what is typed, whatever the interleaving. -/
namespace Tianole.Console
open Input Tty Debug Work Runs
open Printk (ascii ttyWriteString)

/-! ### From the keyboard to the input console -/

/-- The events in the input core. -/
def ConsoleSystem.queued (σ : ConsoleSystem) : List InputEvent :=
  σ.queue.events.contents inputQueueCapacity

/-- The input core is in order, and unless a report was refused, the events read and queued have the
texts `texts`. -/
structure Carries (σ : ConsoleSystem) (texts : List (List UInt8)) : Prop where
  ready : σ.queue.initialized = true
  valid : σ.queue.events.Valid inputQueueCapacity
  texts : σ.refused = 0 → (σ.delivered ++ σ.queued).map inputConsoleDeliverKey = texts

section
variable {σ : ConsoleSystem} {texts : List (List UInt8)} {d : Discipline} {l : List WorkPtr}

theorem deliver_report (r : Report) (device : UInt32) (now : UInt64) :
    inputConsoleDeliverKey ⟨inputEventKey, r.key.code, if r.pressed then 1 else 0,
      .ofBitVec r.modifiers, device, now⟩ = reportText r := by
  unfold inputConsoleDeliverKey reportText
  cases r.pressed with
  | false => simp
  | true => simp

theorem Carries.report (h : Carries σ texts) (now : UInt64) (r : Report) :
    Carries (σ.report now r) (texts ++ [reportText r]) := by
  have hkey : ¬ (ps2InputDev.registered = false ∨
      ps2InputDev.capabilities &&& inputDeviceCapKey = 0) := by decide
  unfold ConsoleSystem.report inputReportKey
  simp only [if_neg hkey, inputReportEvent, h.ready, Bool.true_eq_false, if_false]
  by_cases hfull : σ.queue.events.count = inputQueueCapacity
  · rw [if_pos hfull]
    refine ⟨rfl, h.valid, ?_⟩
    intro hzero
    simp [Errno.nospc] at hzero
  · rw [if_neg hfull]
    have hroom : σ.queue.events.count < inputQueueCapacity :=
      Nat.lt_of_le_of_ne h.valid.count hfull
    refine ⟨rfl, h.valid.push hroom, ?_⟩
    intro hzero
    simp only [ConsoleSystem.queued, h.valid.contents_push hroom]
    rw [← List.append_assoc, List.map_append, List.map_singleton, deliver_report]
    exact congrArg (· ++ _) (h.texts hzero)

theorem Carries.reports (h : Carries σ texts) (now : UInt64) (rs : List Report) :
    Carries (rs.foldl (ConsoleSystem.report now) σ) (texts ++ rs.map reportText) := by
  induction rs generalizing σ texts with
  | nil => simpa using h
  | cons r rs ih =>
    rw [List.foldl_cons, List.map_cons, List.append_cons]
    exact ih (h.report now r)

/-- Reports touch nothing but the input core. -/
theorem foldl_report (σ : ConsoleSystem) (now : UInt64) (rs : List Report) :
    ∃ queue refused, rs.foldl (ConsoleSystem.report now) σ =
      { σ with queue := queue, refused := refused } := by
  induction rs generalizing σ with
  | nil => exact ⟨_, _, rfl⟩
  | cons r rs ih =>
    obtain ⟨queue, refused, heq⟩ := ih (σ.report now r)
    exact ⟨queue, refused, heq⟩

/-- Decoding adds reports at the end. -/
theorem decode_reports (dec : Decoder) (bytes : List UInt8) :
    dec.reports <+: (ps2KeyboardWork dec bytes).reports := by
  unfold ps2KeyboardWork
  induction bytes generalizing dec with
  | nil => exact List.prefix_rfl
  | cons b bytes ih =>
    refine List.IsPrefix.trans ?_ (ih (decodeScancode dec b))
    unfold decodeScancode
    dsimp only
    split_ifs
    · exact List.prefix_rfl
    · exact List.prefix_rfl
    · exact List.prefix_rfl
    · exact List.prefix_rfl
    · exact List.prefix_append _ _

/-- Only the worker touches the decoder, when it decodes a byte. -/
theorem step_decoder {π π' : Pipeline} {act : PipelineAction} (hs : π.step act = .ok π') :
    π.keyboard.decoder.reports <+: π'.keyboard.decoder.reports := by
  cases act with
  | irq status scancode =>
    obtain rfl := Except.ok.inj hs
    have hsame : (π.irq status scancode).keyboard.decoder = π.keyboard.decoder := by
      unfold Pipeline.irq ps2RawPush
      split_ifs <;> rfl
    rw [hsame]
  | work act =>
    simp only [Pipeline.step] at hs
    split at hs
    · obtain rfl := Except.ok.inj hs
      unfold Pipeline.callback ps2RawPop
      cases π.inHand with
      | some b => exact decode_reports _ [b]
      | none =>
        dsimp only
        split_ifs
        · exact List.prefix_rfl
        · exact List.prefix_rfl
    · obtain ⟨work, -, rfl⟩ := map_ok hs
      exact List.prefix_rfl

/-- The way from the keyboard to the input console is in order. -/
structure Carried (σ : ConsoleSystem) : Prop where
  flows : ∃ l, Flows σ.pipeline l
  carries : Carries σ (σ.pipeline.keyboard.decoder.reports.map reportText)
  chars : σ.received ++ σ.chars = σ.delivered.flatMap inputConsoleDeliverKey

theorem Carried.pipeline (h : Carried σ) {act : PipelineAction} (hadm : σ.pipeline.Admissible act)
    (now : UInt64) : ∃ π queue refused, σ.pipelineStep act now =
      .ok { σ with pipeline := π, queue := queue, refused := refused } ∧
      Carried { σ with pipeline := π, queue := queue, refused := refused } := by
  obtain ⟨l, hflows⟩ := h.flows
  obtain ⟨π, l', hs, hflows'⟩ := hflows.step hadm
  obtain ⟨new, hnew⟩ := step_decoder hs
  obtain ⟨queue, refused, heq⟩ := foldl_report { σ with pipeline := π } now new
  have hcarries : Carries { σ with pipeline := π } _ :=
    ⟨h.carries.ready, h.carries.valid, h.carries.texts⟩
  have hreports := hcarries.reports now new
  rw [heq, ← List.map_append, hnew] at hreports
  refine ⟨π, queue, refused, ?_, ⟨l', hflows'⟩, hreports, h.chars⟩
  rw [ConsoleSystem.pipelineStep, hs, Except.map, ← hnew, List.drop_left, heq]

theorem Carried.pop (h : Carried σ) (hchars : σ.chars = []) (hevent : 0 < σ.queue.events.count) :
    Carried { σ with
      queue := { σ.queue with events := σ.queue.events.drop inputQueueCapacity }
      chars := inputConsoleDeliverKey σ.queue.events.front
      delivered := σ.delivered ++ [σ.queue.events.front] } := by
  refine ⟨h.flows, ⟨h.carries.ready, h.carries.valid.drop hevent, ?_⟩, ?_⟩
  · intro hzero
    have htexts := h.carries.texts hzero
    rw [ConsoleSystem.queued, h.carries.valid.contents_drop hevent] at htexts
    rw [← htexts, ConsoleSystem.queued]
    simp only [List.append_assoc, List.singleton_append]
  · have hold := h.chars
    rw [hchars, List.append_nil] at hold
    simp only [hold, List.flatMap_append, List.flatMap_singleton]

/-! ### Lines -/

theorem edited_concat (text : List UInt8) (ch : UInt8) : edited (text ++ [ch]) =
    if ch = newline then ((edited text).1 ++ [(edited text).2], [])
    else ((edited text).1, editChar (edited text).2 ch) := by
  simp [edited]

/-- No bytes that would end a line early, and no more than the debugger has room for. -/
def Clean (line : List UInt8) : Prop := 0 ∉ line ∧ line.length ≤ 127

theorem Clean.editChar {line : List UInt8} {ch : UInt8} (h : Clean line) (hch : ch ≠ 0) :
    Clean (editChar line ch) := by
  unfold Tty.editChar
  split_ifs with hback hroom
  · refine ⟨fun hmem => h.1 (List.dropLast_subset line hmem), ?_⟩
    have hlen := h.2
    rw [List.length_dropLast]
    omega
  · refine ⟨?_, ?_⟩
    · simp [h.1, hch.symm]
    · simp only [List.length_append, List.length_singleton]
      omega
  · exact h

/-- The terminal as it is when the input console is done with its line. -/
def ConsoleSystem.settled (σ : ConsoleSystem) : Terminal :=
  if σ.clearing then ttyClearEditLine σ.terminal else σ.terminal

/-- The terminal has made of the bytes received what the editing semantics asks for. -/
structure Edits (σ : ConsoleSystem) (d : Discipline) : Prop where
  follows : Follows σ.settled d
  refused : σ.refusedLines = d.refused
  edited : d.refused = 0 → edited σ.received = (d.accepted, d.edit)
  clean : ∀ line ∈ d.accepted, Clean line
  cleanEdit : Clean d.edit

theorem Edits.clear (h : Edits σ d) (hclearing : σ.clearing = true) :
    Edits { σ with terminal := ttyClearEditLine σ.terminal, clearing := false } d := by
  have hfollows := h.follows
  rw [ConsoleSystem.settled, if_pos hclearing] at hfollows
  exact ⟨hfollows, h.refused, h.edited, h.clean, h.cleanEdit⟩

theorem Edits.edit (h : Edits σ d) (hclearing : σ.clearing = false) {ch : UInt8}
    (hch : ch ≠ 0) (hline : ch ≠ newline) :
    Edits (σ.receive ch) { d with edit := editChar d.edit ch } := by
  have hfollows := h.follows
  rw [ConsoleSystem.settled, if_neg (by simp [hclearing])] at hfollows
  have hnext := hfollows.receiveChar ch
  rw [Discipline.call, if_neg hline] at hnext
  unfold ConsoleSystem.receive
  rw [if_neg hline]
  refine ⟨?_, h.refused, ?_, h.clean, h.cleanEdit.editChar hch⟩
  · rw [ConsoleSystem.settled, if_neg (by simp [hclearing])]
    exact hnext
  · intro hzero
    rw [edited_concat, if_neg hline, h.edited hzero]

/-- A newline queues the line when fewer than eight are queued, and drops it otherwise. -/
theorem Edits.submit (h : Edits σ d) (hclearing : σ.clearing = false) :
    Edits (σ.receive newline) (d.call (.receiveChar newline)) := by
  have hfollows := h.follows
  rw [ConsoleSystem.settled, if_neg (by simp [hclearing])] at hfollows
  have hnext := hfollows.submit
  have hwakes : (ttySubmitLocked σ.terminal).2 = decide (d.queued.length < 8) := by
    have hcount := hfollows.count
    have hvalid := hfollows.holds.valid.count
    unfold ttySubmitLocked
    split
    next hfull =>
      rw [ttyLineQueueSize] at hfull
      simp only [Bool.false_eq, decide_eq_false_iff_not]
      omega
    next hroom =>
      rw [ttyLineQueueSize] at hroom hvalid
      simp only [Bool.true_eq, decide_eq_true_eq]
      omega
  unfold ConsoleSystem.receive
  rw [if_pos rfl]
  simp only [hwakes, Discipline.call, if_true, decide_eq_true_eq] at hnext ⊢
  by_cases hroom : d.queued.length < 8
  · simp only [if_pos hroom] at hnext ⊢
    refine ⟨hnext, h.refused, ?_, ?_, by simp [Clean]⟩
    · intro hzero
      rw [edited_concat, if_pos rfl, h.edited hzero]
    · intro line hmem
      rcases List.mem_append.mp hmem with hmem | hmem
      · exact h.clean line hmem
      · rw [List.mem_singleton.mp hmem]
        exact h.cleanEdit
  · simp only [if_neg hroom] at hnext ⊢
    refine ⟨hnext, congrArg (· + 1) h.refused, ?_, h.clean, by simp [Clean]⟩
    intro hzero
    simp at hzero

/-! ### Commands -/

/-- The debugger has run the lines delivered to it, and printed what they ask for. -/
structure Performs (σ : ConsoleSystem) (d : Discipline) : Prop where
  lines : d.accepted.take d.delivered = σ.lines
  delivered : d.delivered ≤ d.accepted.length
  console : σ.kdb.console = if σ.kdb.started then ttyWrite (sessionText σ.kdb.ran) else []
  started : σ.kdb.started = false → σ.kdb.ran = []

/-- What a clean line looks like in the buffer of the debugger. -/
theorem buffer_line {line : List UInt8} (h : Clean line) (buffer : ℕ → UInt8) :
    ∃ rest, written (fill buffer (clipped line kdbLineLength)) kdbLineLength =
      line ++ 0 :: rest := by
  have hclipped : clipped line kdbLineLength = line ++ [0] := by
    rw [clipped, kdbLineLength, List.take_of_length_le h.2]
  obtain ⟨m, hm⟩ : ∃ m, kdbLineLength = (line ++ [0]).length + m := by
    have hlen := h.2
    refine ⟨127 - line.length, ?_⟩
    rw [List.length_append, List.length_singleton, kdbLineLength]
    omega
  have hfirst := written_fill buffer (line ++ [0])
  unfold written at hfirst ⊢
  rw [hclipped, hm, List.range_add, List.map_append, hfirst, List.append_assoc]
  exact ⟨_, rfl⟩

theorem sessionText_concat (ran : List (List UInt8 × Observed)) (line : List UInt8)
    (seen : Observed) : sessionText (ran ++ [(line, seen)]) =
      sessionText ran ++ (Command.parse line).text seen ++ ascii kdbPrompt := by
  simp [sessionText]

/-- Reading a line and clearing the edit line do not meet. -/
theorem settled_pop (σ : ConsoleSystem) (size : BufferSize) :
    ttyPopLineLocked σ.settled size =
      ({ σ with terminal := (ttyPopLineLocked σ.terminal size).1 }.settled,
        (ttyPopLineLocked σ.terminal size).2) := by
  unfold ConsoleSystem.settled ttyClearEditLine ttyPopLineLocked
  dsimp only
  split <;> split <;> rfl

/-- What the debugger gets when a line is queued. -/
theorem Edits.pop (h : Edits σ d) (hline : ttyHasLine σ.terminal = true) (buffer : ℕ → UInt8) :
    let popped := ttyPopLineLocked σ.terminal ⟨kdbLineLength, by decide⟩
    ∃ line, d.accepted[d.delivered]? = some line ∧ Clean line ∧ 0 ≤ popped.2.1 ∧
      fill buffer popped.2.2 = fill buffer (clipped line kdbLineLength) ∧
      Follows { σ with terminal := popped.1 }.settled { d with delivered := d.delivered + 1 } := by
  intro popped
  have hcount : 0 < σ.settled.lines.count := by
    have hne : σ.terminal.lines.count ≠ 0 := by simpa [ttyHasLine] using hline
    unfold ConsoleSystem.settled ttyClearEditLine
    split
    · exact Nat.pos_of_ne_zero hne
    · exact Nat.pos_of_ne_zero hne
  obtain ⟨rest, hqueued, -, -⟩ := h.follows.front hcount
  have hlength : 0 < kdbLineLength := by decide
  obtain ⟨hread, hfollows⟩ := (h.follows.tryReadLine buffer hlength).2 _ rest hqueued
  have hcall : ttyTryReadLine σ.settled (some buffer) kdbLineLength =
      ({ σ with terminal := popped.1 }.settled, popped.2.1, some (fill buffer popped.2.2)) := by
    simp only [ttyTryReadLine, hlength, dif_pos, h.follows.ready, Bool.true_eq_false, if_false,
      settled_pop, popped]
  rw [hcall] at hread hfollows
  obtain ⟨hret, hbytes⟩ := Prod.mk.inj hread
  have hget : d.accepted[d.delivered]? = some σ.settled.lines.front.bytes := by
    rw [← List.head?_drop]
    exact congrArg List.head? hqueued
  refine ⟨_, hget, h.clean _ (List.mem_of_getElem? hget), ?_, Option.some.inj hbytes, hfollows⟩
  rw [hret]
  exact Int.natCast_nonneg _

/-- The debugger takes the oldest line, runs its command, and prompts for the next one. -/
theorem Performs.command (hedits : Edits σ d) (h : Performs σ d) (hstarted : σ.kdb.started = true)
    (hline : ttyHasLine σ.terminal = true) (seen : Observed) : ∃ terminal kdb,
      σ.kdbStep seen = .ok { σ with terminal := terminal, kdb := kdb } ∧
      Edits { σ with terminal := terminal, kdb := kdb } { d with delivered := d.delivered + 1 } ∧
      Performs { σ with terminal := terminal, kdb := kdb } { d with delivered := d.delivered + 1 } := by
  obtain ⟨line, hget, hclean, hret, hbytes, hfollows⟩ := hedits.pop hline σ.kdb.line
  obtain ⟨rest, hbuffer⟩ := buffer_line hclean σ.kdb.line
  have hconsole := h.console
  rw [if_pos hstarted] at hconsole
  have hrun := kdbRunCommand_eq seen σ.kdb.console rest hclean.1
  have htext : (Terminated.text 0 (line ++ 0 :: rest)).getD [] = line := by
    rw [Terminated.text_append hclean.1]
    rfl
  refine ⟨_, { σ.kdb with
      line := fill σ.kdb.line (clipped line kdbLineLength)
      console := ttyWriteString (σ.kdb.console ++ ttyWrite ((Command.parse line).text seen))
        (ascii kdbPrompt)
      ran := σ.kdb.ran ++ [(line, seen)] },
    ?_, ⟨hfollows, hedits.refused, hedits.edited, hedits.clean, hedits.cleanEdit⟩, ?_, ?_, ?_, ?_⟩
  · unfold ConsoleSystem.kdbStep
    rw [if_neg (by simp [hstarted]), if_pos hline]
    simp only [if_neg (Int.not_lt.mpr hret), hbytes, hbuffer, hrun, htext, Except.mapError, bind,
      Except.bind, pure, Except.pure]
  · have hlines := h.lines
    simp only [ConsoleSystem.lines, List.map_append, List.map_singleton] at hlines ⊢
    rw [List.take_add_one, hget, hlines]
    rfl
  · exact (List.getElem?_eq_some_iff.mp hget).1
  · simp only [hstarted, if_true]
    rw [sessionText_concat, ttyWriteString, hconsole, ttyWrite_append, ttyWrite_append]
  · intro hnot
    rw [hstarted] at hnot
    cases hnot

/-- The first prompt. -/
theorem Performs.start (h : Performs σ d) (hstarted : σ.kdb.started = false) (seen : Observed) : ∃ kdb,
    σ.kdbStep seen = .ok { σ with kdb := kdb } ∧ Performs { σ with kdb := kdb } d := by
  have hconsole := h.console
  rw [hstarted] at hconsole
  unfold ConsoleSystem.kdbStep
  rw [if_pos hstarted]
  refine ⟨_, rfl, h.lines, h.delivered, ?_, ?_⟩
  · simp [h.started hstarted, hconsole, sessionText, ttyWriteString, ttyWrite_append]
  · intro hnot
    cases hnot

/-! ### Runs of the system -/

structure ConsoleSystem.Inv (σ : ConsoleSystem) (d : Discipline) : Prop where
  carried : Carried σ
  edits : Edits σ d
  runs : Performs σ d

theorem deliver_ne_zero (event : InputEvent) : ∀ ch ∈ inputConsoleDeliverKey event, ch ≠ 0 := by
  intro ch hch
  unfold inputConsoleDeliverKey at hch
  split at hch
  · cases hch
  · exact (keysymFor_ascii _ _ _ ch hch).1

theorem receive_eq (σ : ConsoleSystem) (ch : UInt8) : ∃ terminal clearing refusedLines,
    σ.receive ch = { σ with
      terminal := terminal
      clearing := clearing
      received := σ.received ++ [ch]
      refusedLines := refusedLines } := by
  unfold ConsoleSystem.receive
  split
  · exact ⟨_, _, _, rfl⟩
  · exact ⟨_, _, _, rfl⟩

theorem call_newline (d : Discipline) :
    (d.call (.receiveChar newline)).delivered = d.delivered ∧
      d.accepted <+: (d.call (.receiveChar newline)).accepted := by
  simp only [Discipline.call, if_true]
  split
  · exact ⟨rfl, List.prefix_append _ _⟩
  · exact ⟨rfl, List.prefix_rfl⟩

theorem ConsoleSystem.Inv.char (h : σ.Inv d) (hclearing : σ.clearing = false) {ch : UInt8}
    {chars : List UInt8} (hchars : σ.chars = ch :: chars) :
    ∃ d', ({ σ.receive ch with chars := chars } : ConsoleSystem).Inv d' := by
  have hbytes := h.carried.chars
  rw [hchars] at hbytes
  have hch : ch ≠ 0 := by
    have hmem : ch ∈ σ.delivered.flatMap inputConsoleDeliverKey := by
      rw [← hbytes]
      simp
    obtain ⟨event, -, hmem⟩ := List.mem_flatMap.mp hmem
    exact deliver_ne_zero event ch hmem
  have hedits : ∃ d', d.accepted.take d.delivered = d'.accepted.take d'.delivered ∧
      d'.delivered ≤ d'.accepted.length ∧ Edits (σ.receive ch) d' := by
    by_cases hline : ch = newline
    · subst hline
      obtain ⟨hsame, ⟨more, hmore⟩⟩ := call_newline d
      have hle := h.runs.delivered
      refine ⟨_, ?_, ?_, h.edits.submit hclearing⟩
      · rw [hsame, ← hmore, List.take_append_of_le_length hle]
      · rw [hsame, ← hmore, List.length_append]
        exact Nat.le_add_right_of_le hle
    · exact ⟨{ d with edit := editChar d.edit ch }, rfl, h.runs.delivered,
        h.edits.edit hclearing hch hline⟩
  obtain ⟨d', hlines, hdelivered, hedits⟩ := hedits
  obtain ⟨terminal, clearing, refusedLines, heq⟩ := receive_eq σ ch
  rw [heq] at hedits ⊢
  refine ⟨d', ⟨h.carried.flows, ?_, ?_⟩, ?_, ?_⟩
  · exact ⟨h.carried.carries.ready, h.carried.carries.valid, h.carried.carries.texts⟩
  · simpa using hbytes
  · exact ⟨hedits.follows, hedits.refused, hedits.edited, hedits.clean, hedits.cleanEdit⟩
  · exact ⟨hlines.symm.trans h.runs.lines, hdelivered, h.runs.console, h.runs.started⟩

theorem ConsoleSystem.Inv.console (h : σ.Inv d) :
    ∃ σ' d', σ.consoleStep = .ok σ' ∧ σ'.Inv d' := by
  obtain ⟨hcarried, hedits, hruns⟩ := h
  unfold ConsoleSystem.consoleStep
  by_cases hclearing : σ.clearing = true
  · rw [if_pos hclearing]
    refine ⟨_, d, rfl, ?_, hedits.clear hclearing, ?_⟩
    · exact ⟨hcarried.flows, ⟨hcarried.carries.ready, hcarried.carries.valid,
        hcarried.carries.texts⟩, hcarried.chars⟩
    · exact ⟨hruns.lines, hruns.delivered, hruns.console, hruns.started⟩
  · rw [if_neg hclearing]
    rw [Bool.not_eq_true] at hclearing
    cases hchars : σ.chars with
    | cons ch chars =>
      obtain ⟨d', h'⟩ := ConsoleSystem.Inv.char ⟨hcarried, hedits, hruns⟩ hclearing hchars
      exact ⟨_, d', rfl, h'⟩
    | nil =>
      dsimp only
      by_cases hevent : σ.queue.events.count = 0
      · rw [if_neg (by simp [inputHasEvent, hevent])]
        exact ⟨σ, d, rfl, hcarried, hedits, hruns⟩
      · rw [if_pos (by simp [inputHasEvent, hevent]), inputPopLocked, if_neg hevent]
        refine ⟨_, d, rfl, hcarried.pop hchars (Nat.pos_of_ne_zero hevent), ?_, ?_⟩
        · exact ⟨hedits.follows, hedits.refused, hedits.edited, hedits.clean, hedits.cleanEdit⟩
        · exact ⟨hruns.lines, hruns.delivered, hruns.console, hruns.started⟩

theorem ConsoleSystem.Inv.kdb (h : σ.Inv d) (seen : Observed) :
    ∃ σ' d', σ.kdbStep seen = .ok σ' ∧ σ'.Inv d' := by
  obtain ⟨hcarried, hedits, hruns⟩ := h
  have hcarried' (terminal : Terminal) (kdb : KdbThread) :
      Carried { σ with terminal := terminal, kdb := kdb } :=
    ⟨hcarried.flows, ⟨hcarried.carries.ready, hcarried.carries.valid, hcarried.carries.texts⟩,
      hcarried.chars⟩
  cases hstarted : σ.kdb.started with
  | false =>
    obtain ⟨kdb, hs, hruns'⟩ := hruns.start hstarted seen
    refine ⟨_, d, hs, hcarried' σ.terminal kdb, ?_, hruns'⟩
    exact ⟨hedits.follows, hedits.refused, hedits.edited, hedits.clean, hedits.cleanEdit⟩
  | true =>
    by_cases hline : ttyHasLine σ.terminal = true
    · obtain ⟨terminal, kdb, hs, hedits', hruns'⟩ := hruns.command hedits hstarted hline seen
      exact ⟨_, _, hs, hcarried' terminal kdb, hedits', hruns'⟩
    · unfold ConsoleSystem.kdbStep
      rw [if_neg (by simp [hstarted]), if_neg hline]
      exact ⟨σ, d, rfl, hcarried, hedits, hruns⟩

/-- Every step that may be taken completes, and keeps the invariant. -/
theorem ConsoleSystem.Inv.step (h : σ.Inv d) {act : ConsoleAction} (hadm : σ.Admissible act) :
    ∃ σ' d', σ.step act = .ok σ' ∧ σ'.Inv d' := by
  cases act with
  | pipeline act now =>
    obtain ⟨π, queue, refused, hs, hcarried⟩ := h.carried.pipeline hadm now
    refine ⟨_, d, ?_, hcarried, ?_, ?_⟩
    · rw [ConsoleSystem.step, hs]
      rfl
    · exact ⟨h.edits.follows, h.edits.refused, h.edits.edited, h.edits.clean, h.edits.cleanEdit⟩
    · exact ⟨h.runs.lines, h.runs.delivered, h.runs.console, h.runs.started⟩
  | console => exact h.console
  | kdb seen => exact h.kdb seen

theorem ConsoleSystem.Initial.inv (h : σ.Initial) : σ.Inv .start := by
  obtain ⟨hchars, hclearing⟩ := h.console
  obtain ⟨hstarted, hconsole, hran⟩ := h.kdb
  obtain ⟨hdelivered, hrefused, hreceived, hlines⟩ := h.start
  have hflows := h.pipeline.flows
  have hqueue := h.queue.fifo
  have hreports : σ.pipeline.keyboard.decoder.reports = [] := by
    obtain ⟨slots, hkeyboard⟩ := h.pipeline.keyboard
    rw [hkeyboard]
    rfl
  have hqueued : σ.queued = [] := by
    rw [ConsoleSystem.queued]
    exact hqueue.contents
  refine ⟨⟨⟨[], hflows⟩, ⟨hqueue.initialized, hqueue.valid, ?_⟩, ?_⟩, ?_, ?_⟩
  · intro _
    rw [hreports, hdelivered, hqueued]
    rfl
  · rw [hreceived, hchars, hdelivered]
    rfl
  · refine ⟨?_, hlines, ?_, ?_, ?_⟩
    · rw [ConsoleSystem.settled, hclearing]
      exact h.terminal.follows
    · intro _
      rw [hreceived]
      rfl
    · intro line hmem
      cases hmem
    · simp [Clean, Discipline.start]
  · refine ⟨?_, Nat.le_refl _, ?_, fun _ => hran⟩
    · rw [ConsoleSystem.lines, hran]
      rfl
    · rw [hstarted, hconsole]
      rfl

theorem ConsoleSystem.Reachable.inv (h : σ.Reachable) : ∃ d, σ.Inv d := by
  apply Reach.invariant (I := fun σ : ConsoleSystem => ∃ d, σ.Inv d) h
  · intro σ hi
    exact ⟨_, hi.inv⟩
  · rintro σ act σ' ⟨d, hinv⟩ hadm hs
    obtain ⟨σ₁, d', hs₁, hinv'⟩ := hinv.step hadm
    obtain rfl := Except.ok.inj (hs.symm.trans hs₁)
    exact ⟨d', hinv'⟩

/-! ### What is typed and what is run -/

/-- Unless reports were refused, what the terminal received is the beginning of the text of the bytes
decoded, and all of it when nothing is queued or in hand. -/
theorem Carried.received (h : Carried σ) (hrefused : σ.refused = 0) :
    ∃ later, (ps2KeyboardWork .initial σ.pipeline.decoded).reports.flatMap reportText =
      σ.received ++ later ∧ (σ.queued = [] → σ.chars = [] → later = []) := by
  obtain ⟨l, hflows⟩ := h.flows
  refine ⟨σ.chars ++ σ.queued.flatMap inputConsoleDeliverKey, ?_, ?_⟩
  · rw [← hflows.decoder, ← List.append_assoc, h.chars, ← List.flatMap_append, List.flatMap,
      List.flatMap, h.carries.texts hrefused]
  · intro hqueued hchars
    rw [hqueued, hchars]
    rfl

theorem Carried.typed (h : Carried σ) (hrefused : σ.refused = 0) {scans : List Scan}
    (hv : ∀ scan ∈ scans, scan.Valid) (halone : ReleasesAlone scans)
    (hsent : σ.pipeline.accepted <+: encode scans) :
    σ.received <+: Board.start.typed scans ∧ (σ.AtRest → σ.pipeline.accepted = encode scans →
      σ.received = Board.start.typed scans) := by
  obtain ⟨l, hflows⟩ := h.flows
  obtain ⟨later, htext, hdone⟩ := h.received hrefused
  have hdecoded : σ.pipeline.decoded <+: encode scans := by
    refine List.IsPrefix.trans ?_ hsent
    rw [hflows.bytes, List.append_assoc]
    exact List.prefix_append _ _
  rw [← reports_text hv halone]
  constructor
  · obtain ⟨rest, hrest⟩ := hdecoded
    have hreports := decode_reports (ps2KeyboardWork .initial σ.pipeline.decoded) rest
    have hwork : ps2KeyboardWork (ps2KeyboardWork .initial σ.pipeline.decoded) rest =
        ps2KeyboardWork .initial (encode scans) := by
      rw [← hrest, ps2KeyboardWork, ps2KeyboardWork, ps2KeyboardWork, List.foldl_append]
    rw [hwork] at hreports
    refine List.IsPrefix.trans ?_ (hreports.flatMap reportText)
    rw [htext]
    exact List.prefix_append _ _
  · intro hrest hall
    have hbytes := hflows.bytes
    rw [hrest.inHand, hrest.raw, hall] at hbytes
    have hqueued : σ.queued = [] := RingBuffer.contents_of_count_eq_zero hrest.events
    rw [hdone hqueued hrest.chars] at htext
    simp only [Option.toList_none, List.append_nil] at hbytes htext
    rw [hbytes, htext]

theorem ConsoleSystem.Inv.lines_queue (h : σ.Inv d) (hrefused : σ.refusedLines = 0) :
    σ.lines ++ σ.terminal.queue = (edited σ.received).1 := by
  have hzero : d.refused = 0 := h.edits.refused.symm.trans hrefused
  have hqueue : σ.terminal.queue = d.queued := by
    rw [← h.edits.follows.lines, ConsoleSystem.settled]
    unfold ttyClearEditLine
    split <;> rfl
  rw [h.edits.edited hzero, ← h.runs.lines, hqueue, Discipline.queued, List.take_append_drop]

theorem lost_eq_zero (h : σ.lost = 0) : σ.refused = 0 ∧ σ.refusedLines = 0 := by
  unfold ConsoleSystem.lost at h
  omega

/-- When nothing is on the way, and nothing was lost, all lines typed have been run. -/
theorem ConsoleSystem.Inv.all_run (h : σ.Inv d) (hrest : σ.AtRest) {scans : List Scan}
    (hv : ∀ scan ∈ scans, scan.Valid) (halone : ReleasesAlone scans)
    (hall : σ.pipeline.accepted = encode scans) (hlost : σ.lost = 0) :
    σ.lines = (edited (Board.start.typed scans)).1 := by
  obtain ⟨hrefused, hlines⟩ := lost_eq_zero hlost
  have hqueue := h.lines_queue hlines
  have hempty : σ.terminal.queue = [] := by
    rw [Terminal.queue, RingBuffer.contents_of_count_eq_zero hrest.lines]
    rfl
  obtain ⟨-, hreceived⟩ := h.carried.typed hrefused hv halone (hall ▸ List.prefix_rfl)
  rw [hempty, List.append_nil, hreceived hrest hall] at hqueue
  exact hqueue

end

/-- In every run no step fails, and once the debugger has started, it has printed its prompts and what
the lines that it ran ask for. Unless the line queue refused one, the lines that it ran, with those
that wait for it, are the lines that the received characters complete. If moreover nothing else was
lost, and no modifier key was released while its twin was held, then what the terminal has received
is the beginning of what is typed on the keyboard; and when nothing is on the way and all bytes of
the keyboard have arrived, the debugger has run all lines typed. -/
theorem typed_commands_run {σ : ConsoleSystem} (h : σ.Reachable) :
    (∀ act, σ.Admissible act → ∃ σ', σ.step act = .ok σ') ∧
    (σ.kdb.started = true → σ.kdb.console = ttyWrite (sessionText σ.kdb.ran)) ∧
    (σ.refusedLines = 0 → σ.lines ++ σ.terminal.queue = (edited σ.received).1) ∧
    ∀ scans : List Scan, (∀ scan ∈ scans, scan.Valid) → ReleasesAlone scans →
      σ.pipeline.accepted <+: encode scans → σ.lost = 0 →
        σ.received <+: Board.start.typed scans ∧
        (σ.AtRest → σ.pipeline.accepted = encode scans →
          σ.lines = (edited (Board.start.typed scans)).1) := by
  obtain ⟨d, hinv⟩ := h.inv
  refine ⟨?_, ?_, hinv.lines_queue, ?_⟩
  · intro act hadm
    obtain ⟨σ', -, hs, -⟩ := hinv.step hadm
    exact ⟨σ', hs⟩
  · intro hstarted
    have hconsole := hinv.runs.console
    rwa [if_pos hstarted] at hconsole
  · intro scans hv halone hsent hlost
    constructor
    · exact (hinv.carried.typed (lost_eq_zero hlost).1 hv halone hsent).1
    · intro hrest hall
      exact hinv.all_run hrest hv halone hall hlost

def consoleBoot : ConsoleSystem where
  pipeline := .boot
  queue := inputBoot
  terminal := ttyBoot
  chars := []
  clearing := false
  kdb := ⟨false, fun _ => 0, [], []⟩
  delivered := []
  refused := 0
  received := []
  refusedLines := 0

theorem consoleBoot_reachable : consoleBoot.Reachable :=
  .start ⟨⟨⟨_, 1, rfl, rfl⟩, ⟨_, rfl⟩, rfl, rfl, rfl, rfl⟩, inputBoot_started, ttyBoot_started,
    ⟨rfl, rfl⟩, ⟨rfl, rfl, rfl⟩, rfl, rfl, rfl, rfl⟩

/-- The keys of `hi` and a newline; then the worker, the input console and the debugger run. -/
def exampleActions : List ConsoleAction :=
  [0x23, 0xa3, 0x17, 0x97, 0x1c, 0x9c].map (fun b => .pipeline (.irq 1 b) 0) ++
    List.replicate 20 (.pipeline (.work .worker) 0) ++ List.replicate 10 .console ++
    List.replicate 2 (.kdb ⟨0, 0, 0, .error 0⟩)

theorem exampleActions_admissible :
    ∀ act ∈ exampleActions, ∀ σ : ConsoleSystem, σ.Admissible act := by
  intro act hact σ
  simp only [exampleActions, List.mem_append, List.mem_map, List.mem_replicate] at hact
  rcases hact with ((⟨b, -, rfl⟩ | ⟨-, rfl⟩) | ⟨-, rfl⟩) | ⟨-, rfl⟩
  · exact trivial
  · exact ⟨trivial, fun _ heq => by cases heq⟩
  · exact trivial
  · exact trivial

theorem typed_commands_run_hi : ∃ σ : ConsoleSystem, σ.Reachable ∧ σ.AtRest ∧
    σ.lines = [ascii "hi"] := by
  have htypeable : ∀ ch ∈ [0x68, 0x69, newline], Typeable ch :=
    typeable_of_all (by decide)
  have hstroked : ∀ scan ∈ typing false [0x68, 0x69, newline], Stroked scan :=
    stroked_typing htypeable
  obtain ⟨σ, hr, hb⟩ := Reach.exec_map
    (f := fun σ : ConsoleSystem => (σ.pipeline.accepted, σ.lost, decide σ.AtRest))
    (b := (encode (typing false [0x68, 0x69, newline]), 0, true)) consoleBoot_reachable
    exampleActions exampleActions_admissible (by decide +kernel)
  simp only [Prod.mk.injEq, decide_eq_true_eq] at hb
  obtain ⟨haccepted, hlost, hrest⟩ := hb
  obtain ⟨-, hran⟩ := (typed_commands_run hr).2.2.2 _
    (fun scan hscan => (hstroked scan hscan).valid) (releasesAlone_of_stroked hstroked)
    (haccepted ▸ List.prefix_rfl) hlost
  refine ⟨σ, hr, hrest, ?_⟩
  rw [hran hrest haccepted, show Board.start = .idle false from rfl, typing_typed false htypeable]
  decide

end Tianole.Console
