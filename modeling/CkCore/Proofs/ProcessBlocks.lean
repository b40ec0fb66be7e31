import CkCore.Lib.Runs
import CkCore.Proofs.ProcessOutput

namespace CkCore.Proofs.ProcessBlocks
open Lib ProcessRun ProcessSteps ProcessOutput

/-- A byte that ends a block. -/
def delim (blockDelims : List Byte) (c : Byte) : Bool := decide (c ∈ blockDelims)

/-- A call of one of the two read functions with the bytes its read returned:
none at all when that failed or the pipe was closed. -/
inductive ReadCall where
  | out (bytes : List Byte)
  | err (bytes : List Byte)

def ReadCall.outBytes : ReadCall → List Byte
  | .out bytes => bytes
  | .err _ => []

def ReadCall.errBytes : ReadCall → List Byte
  | .out _ => []
  | .err bytes => bytes

/-- A process being read, and the blocks each of the two functions has passed to
event_output. -/
structure Reader where
  self : Process
  outBlocks : List (List Byte)
  errBlocks : List (List Byte)

/-- The reader as listen sets out, with both block buffers cleared. -/
def begin (self : Process) : Reader :=
  ⟨{ self with blockBufferOut := [], blockBufferErr := [] }, [], []⟩

def perform (s : Reader) : ReadCall → Reader
  | .out bytes =>
    match s.self.readStdout bytes with
    | none => s
    | some (blocks, self) => { s with self := self, outBlocks := s.outBlocks ++ blocks }
  | .err bytes =>
    match s.self.readStderr bytes with
    | none => s
    | some (blocks, self) => { s with self := self, errBlocks := s.errBlocks ++ blocks }

/-- Splitting more bytes behind the run still open reports the runs they close
and leaves the one they open. -/
theorem split_runs (blockDelims xs bytes : List Byte) :
    closedRuns (delim blockDelims) (xs ++ bytes) = closedRuns (delim blockDelims) xs ++
      (Process.split blockDelims (openRun (delim blockDelims) xs) bytes).1 ∧
    openRun (delim blockDelims) (xs ++ bytes) =
      (Process.split blockDelims (openRun (delim blockDelims) xs) bytes).2 := by
  induction bytes generalizing xs with
  | nil => simp [Process.split]
  | cons c bytes ih =>
    obtain ⟨hclosed, hopen⟩ := ih (xs ++ [c])
    rw [List.append_assoc, List.singleton_append] at hclosed hopen
    rw [hclosed, hopen]
    by_cases hc : c ∈ blockDelims
    · have hd : delim blockDelims c = true := decide_eq_true hc
      rw [closedRuns_delim xs hd, openRun_delim xs hd]
      by_cases hrun : openRun (delim blockDelims) xs = []
      · simp [Process.split, hc, hrun]
      · have hlen := List.length_pos_iff.mpr hrun
        simp [Process.split, hc, hrun, hlen]
    · have hd : delim blockDelims c = false := decide_eq_false hc
      rw [closedRuns_extend xs hd, openRun_extend xs hd]
      simp [Process.split, hc]

theorem reported_append (self : Process) (xs ys : List (List Byte)) :
    self.reported (xs ++ ys) = self.reported xs ++ self.reported ys := by
  unfold Process.reported
  split <;> rfl

theorem reported_alive {p : Process} (hi : p.invalidInheritor = false)
    (blocks : List (List Byte)) : p.reported blocks = blocks := by
  simp [Process.reported, hi]

/-- The reader has been given these bytes on its two pipes. -/
structure Given (p : Process) (out err : List Byte) (s : Reader) : Prop where
  delims : s.self.blockDelims = p.blockDelims
  inheritor : s.self.invalidInheritor = p.invalidInheritor
  outBlocks : s.outBlocks = p.reported (closedRuns (delim p.blockDelims) out)
  outOpen : s.self.blockBufferOut = openRun (delim p.blockDelims) out
  errBlocks : s.errBlocks = p.reported (closedRuns (delim p.blockDelims) err)
  errOpen : s.self.blockBufferErr = openRun (delim p.blockDelims) err

theorem begin_given (p : Process) : Given p [] [] (begin p) := by
  refine ⟨rfl, rfl, ?_, rfl, ?_, rfl⟩
  all_goals
    unfold Process.reported
    split <;> rfl

theorem Given.reported {p : Process} {out err : List Byte} {s : Reader}
    (h : Given p out err s) (blocks : List (List Byte)) :
    s.self.reported blocks = p.reported blocks := by
  unfold Process.reported
  rw [h.inheritor]

/-- One call moves one of the two splits on and leaves the other alone. -/
theorem Given.perform {p : Process} {out err : List Byte} {s : Reader}
    (h : Given p out err s) (call : ReadCall) :
    Given p (out ++ call.outBytes) (err ++ call.errBytes) (perform s call) := by
  cases call with
  | out bytes =>
    obtain ⟨hclosed, hopen⟩ := split_runs p.blockDelims out bytes
    simp only [ReadCall.outBytes, ReadCall.errBytes, List.append_nil]
    by_cases hb : bytes = []
    · simpa [ProcessBlocks.perform, Process.readStdout, hb] using h
    · simp only [ProcessBlocks.perform, Process.readStdout, hb, ↓reduceIte]
      refine ⟨h.delims, h.inheritor, ?_, ?_, h.errBlocks, h.errOpen⟩
      · rw [hclosed, reported_append, h.outBlocks, h.reported, h.delims, h.outOpen]
      · rw [hopen, h.delims, h.outOpen]
  | err bytes =>
    obtain ⟨hclosed, hopen⟩ := split_runs p.blockDelims err bytes
    simp only [ReadCall.outBytes, ReadCall.errBytes, List.append_nil]
    by_cases hb : bytes = []
    · simpa [ProcessBlocks.perform, Process.readStderr, hb] using h
    · simp only [ProcessBlocks.perform, Process.readStderr, hb, ↓reduceIte]
      refine ⟨h.delims, h.inheritor, h.outBlocks, h.outOpen, ?_, ?_⟩
      · rw [hclosed, reported_append, h.errBlocks, h.reported, h.delims, h.errOpen]
      · rw [hopen, h.delims, h.errOpen]

theorem Given.performs {p : Process} {out err : List Byte} {s : Reader}
    (h : Given p out err s) (calls : List ReadCall) :
    Given p (out ++ calls.flatMap ReadCall.outBytes) (err ++ calls.flatMap ReadCall.errBytes)
      (calls.foldl ProcessBlocks.perform s) := by
  induction calls generalizing out err s with
  | nil => simpa using h
  | cons call calls ih => simpa using ih (h.perform call)

/-- However the two streams are cut into reads and interleaved, the blocks passed
to event_output for each are its closed runs and its buffer is the run still
open. The constructor leaves invalid_inheritor_ false, and nothing sets it. -/
theorem blocks_are_runs (p : Process) (hi : p.invalidInheritor = false) (calls : List ReadCall) :
    (calls.foldl perform (begin p)).outBlocks =
      closedRuns (delim p.blockDelims) (calls.flatMap ReadCall.outBytes) ∧
    (calls.foldl perform (begin p)).self.blockBufferOut =
      openRun (delim p.blockDelims) (calls.flatMap ReadCall.outBytes) ∧
    (calls.foldl perform (begin p)).errBlocks =
      closedRuns (delim p.blockDelims) (calls.flatMap ReadCall.errBytes) ∧
    (calls.foldl perform (begin p)).self.blockBufferErr =
      openRun (delim p.blockDelims) (calls.flatMap ReadCall.errBytes) := by
  have h := (begin_given p).performs calls
  exact ⟨h.outBlocks.trans (reported_alive hi _), h.outOpen,
    h.errBlocks.trans (reported_alive hi _), h.errOpen⟩

/-- A line cut in its middle by a read of the other pipe. -/
theorem blocks_are_runs_cut :
    ([.out [72], .err [69, 10], .out [105, 10, 10, 33]].foldl perform
      (begin (ProcessRun.forked [10, 13]).self)).outBlocks = [[72, 105]] ∧
    ([.out [72], .err [69, 10], .out [105, 10, 10, 33]].foldl perform
      (begin (ProcessRun.forked [10, 13]).self)).errBlocks = [[69]] := by
  obtain ⟨hout, _, herr, _⟩ := blocks_are_runs (ProcessRun.forked [10, 13]).self rfl
    [.out [72], .err [69, 10], .out [105, 10, 10, 33]]
  rw [hout, herr]
  decide

/-- listen has cleared the block buffers. -/
def cleared : ListenerPc → Prop
  | .idle | .clear => False
  | _ => True

/-- A step that reads nothing and leaves the block buffers as they are. -/
structure Untouched (s s' : ProcessRun) : Prop where
  delims : s'.self.blockDelims = s.self.blockDelims
  inheritor : s'.self.invalidInheritor = s.self.invalidInheritor
  outOpen : s'.self.blockBufferOut = s.self.blockBufferOut
  errOpen : s'.self.blockBufferErr = s.self.blockBufferErr
  gotOut : s'.gotOut = s.gotOut
  gotErr : s'.gotErr = s.gotErr
  output : s'.output = s.output
  cleared : cleared s'.listener ↔ cleared s.listener

/-- What every run keeps: the blocks reported are the closed runs of the two
streams, in some order, and the buffers hold the open ones. -/
structure Blocks (s : ProcessRun) : Prop where
  unread : ¬ cleared s.listener → s.gotOut = [] ∧ s.gotErr = []
  outOpen : cleared s.listener → s.self.blockBufferOut = openRun (delim s.self.blockDelims) s.gotOut
  errOpen : cleared s.listener → s.self.blockBufferErr = openRun (delim s.self.blockDelims) s.gotErr
  output : s.self.invalidInheritor = false → s.output.Perm
    (closedRuns (delim s.self.blockDelims) s.gotOut ++
      closedRuns (delim s.self.blockDelims) s.gotErr)

/-- Both buffers are empty, and the bytes read are, delimiters apart, those of
the blocks reported. -/
def flushed (s : ProcessRun) : Prop :=
  s.self.blockBufferOut = [] ∧ s.self.blockBufferErr = [] ∧
    s.output.flatten.Perm ((s.gotOut ++ s.gotErr).filter fun c => !delim s.self.blockDelims c)

/-- The last byte, if there is any, is a delimiter. -/
def closedOff (blockDelims bytes : List Byte) : Prop := ∀ c ∈ bytes.getLast?, c ∈ blockDelims

section
variable {s s' : ProcessRun}

theorem forked_blocks (h : Forked s) : Blocks s := by
  obtain ⟨_, _, hout, herr, houtput⟩ := h.record
  refine ⟨fun _ => ⟨hout, herr⟩, ?_, ?_, ?_⟩
  · intro hc
    rw [h.listener] at hc
    exact hc.elim
  · intro hc
    rw [h.listener] at hc
    exact hc.elim
  · intro _
    rw [hout, herr, houtput]
    exact .nil

theorem Blocks.untouched (h : Blocks s) (hs : Untouched s s') : Blocks s' := by
  refine ⟨?_, ?_, ?_, ?_⟩
  · rw [hs.cleared, hs.gotOut, hs.gotErr]
    exact h.unread
  · rw [hs.cleared, hs.outOpen, hs.delims, hs.gotOut]
    exact h.outOpen
  · rw [hs.cleared, hs.errOpen, hs.delims, hs.gotErr]
    exact h.errOpen
  · rw [hs.inheritor, hs.output, hs.delims, hs.gotOut, hs.gotErr]
    exact h.output

theorem Blocks.readOut (h : Blocks s) (hsound : Sound s) {count : Nat}
    (hs : readOutStep s count = some s') : Blocks s' := by
  obtain ⟨err, hl, hr, ⟨hb, _⟩ | ⟨blocks, rest, ⟨_, hsplit⟩, rfl⟩⟩ := readOutStep_cases hs
  · exact absurd hb (readable_take hr (hsound.flagOut err hl))
  · have hc : cleared s.listener := by
      rw [hl]
      trivial
    obtain ⟨hclosed, hopen⟩ :=
      split_runs s.self.blockDelims s.gotOut (s.self.pipeStdout.take count)
    rw [← h.outOpen hc, hsplit] at hclosed hopen
    refine ⟨fun hn => absurd trivial hn, fun _ => hopen.symm, fun _ => h.errOpen hc, ?_⟩
    intro hi
    dsimp only at hi ⊢
    rw [reported_alive hi, hclosed, List.append_assoc]
    refine ((h.output hi).append_right blocks).trans ?_
    rw [List.append_assoc]
    exact List.perm_append_comm.append_left _

theorem Blocks.readErr (h : Blocks s) (hsound : Sound s) {count : Nat}
    (hs : readErrStep s count = some s') : Blocks s' := by
  obtain ⟨hl, hr, ⟨hb, _⟩ | ⟨blocks, rest, ⟨_, hsplit⟩, rfl⟩⟩ := readErrStep_cases hs
  · have hne := hsound.flagErr (by rw [hl]; exact rfl) (by rw [hl]; simp)
    exact absurd hb (readable_take hr hne)
  · have hc : cleared s.listener := by
      rw [hl]
      trivial
    obtain ⟨hclosed, hopen⟩ :=
      split_runs s.self.blockDelims s.gotErr (s.self.pipeStderr.take count)
    rw [← h.errOpen hc, hsplit] at hclosed hopen
    refine ⟨fun hn => absurd trivial hn, fun _ => h.outOpen hc, fun _ => hopen.symm, ?_⟩
    intro hi
    dsimp only at hi ⊢
    rw [reported_alive hi, hclosed, ← List.append_assoc]
    exact (h.output hi).append_right blocks

theorem untouched_handler (hs : sigchldHandler s = some s') : Untouched s s' := by
  unfold sigchldHandler at hs
  split at hs
  · split at hs <;> cases hs <;> exact ⟨rfl, rfl, rfl, rfl, rfl, rfl, rfl, Iff.rfl⟩
  · cases hs
    exact ⟨rfl, rfl, rfl, rfl, rfl, rfl, rfl, Iff.rfl⟩
  all_goals cases hs

theorem untouched_create (hsound : Sound s) (hs : createStep s = some s') : Untouched s s' := by
  unfold createStep at hs
  split at hs
  case h_2 hc =>
    cases hs
    refine ⟨rfl, rfl, rfl, rfl, rfl, rfl, rfl, ?_⟩
    rw [hsound.fresh (Or.inr hc)]
    exact Iff.rfl
  case h_3 =>
    obtain ⟨_, hs⟩ := Option.ite_none_right_eq_some.mp hs
    cases hs
    exact ⟨rfl, rfl, rfl, rfl, rfl, rfl, rfl, Iff.rfl⟩
  case h_1 | h_4 =>
    cases hs
    exact ⟨rfl, rfl, rfl, rfl, rfl, rfl, rfl, Iff.rfl⟩
  case h_5 => cases hs

/-- Clearing the buffers is the listener's first step; its others leave them
alone. -/
theorem Blocks.listen (h : Blocks s) (hs : listenStep s = some s') : Blocks s' := by
  unfold listenStep at hs
  split at hs
  case h_1 hl =>
    cases hs
    obtain ⟨hout, herr⟩ := h.unread (by simp [hl, cleared])
    refine ⟨fun hn => absurd trivial hn, ?_, ?_, h.output⟩
    · intro _
      simp [hout]
    · intro _
      simp [herr]
  case h_3 hl =>
    cases hs
    refine h.untouched ⟨rfl, rfl, rfl, rfl, rfl, rfl, rfl, ?_⟩
    dsimp only
    rw [hl]
    split <;> exact Iff.rfl
  case h_10 | h_11 | h_12 | h_13 => cases hs
  all_goals
    next hl =>
    cases hs
    refine h.untouched ⟨rfl, rfl, rfl, rfl, rfl, rfl, rfl, ?_⟩
    rw [hl]
    exact Iff.rfl

theorem Blocks.step (h : Blocks s) (hsound : Sound s) {e : ProcessEvent}
    (hs : s.step e = some s') : Blocks s' := by
  cases e with
  | childOut bytes | childErr bytes | childExit status | interrupted =>
    obtain ⟨_, hs⟩ := Option.ite_none_right_eq_some.mp hs
    cases hs
    exact h.untouched ⟨rfl, rfl, rfl, rfl, rfl, rfl, rfl, Iff.rfl⟩
  | handler => exact h.untouched (untouched_handler hs)
  | create => exact h.untouched (untouched_create hsound hs)
  | listen => exact h.listen hs
  | readStdout count => exact h.readOut hsound hs
  | readStderr count => exact h.readErr hsound hs

theorem run_blocks {past : List (ProcessRun × ProcessEvent)} (h : system.Run past s) :
    Blocks s := by
  induction h with
  | start h => exact forked_blocks h
  | next before hs ih => exact ih.step (run_sound before).1 hs

theorem closedOff_iff (blockDelims bytes : List Byte) :
    openRun (delim blockDelims) bytes = [] ↔ closedOff blockDelims bytes := by
  rw [openRun_eq_nil_iff]
  simp only [delim, decide_eq_true_eq]
  exact Iff.rfl

/-- With both buffers empty every byte read is a delimiter or in a block. -/
theorem Blocks.reported (h : Blocks s) (hi : s.self.invalidInheritor = false)
    (hout : openRun (delim s.self.blockDelims) s.gotOut = [])
    (herr : openRun (delim s.self.blockDelims) s.gotErr = []) :
    s.output.flatten.Perm ((s.gotOut ++ s.gotErr).filter fun c => !delim s.self.blockDelims c) := by
  have hperm := (h.output hi).flatten
  rw [List.filter_append, ← runs_flatten, ← runs_flatten, hout, herr, List.append_nil,
    List.append_nil, ← List.flatten_append]
  exact hperm

/-- When event_finished is called after everything was read, nothing is left in
the buffers just when each stream was empty or ended with a delimiter: what the
child wrote behind its last delimiter is never reported. -/
theorem flushed_iff {past : List (ProcessRun × ProcessEvent)} (h : system.Run past s)
    (hf : s.listener = .finish) (hi : s.self.invalidInheritor = false) (hread : complete s) :
    flushed s ↔
      closedOff s.self.blockDelims s.wroteOut ∧ closedOff s.self.blockDelims s.wroteErr := by
  have hblocks := run_blocks h
  have hc : cleared s.listener := by
    rw [hf]
    trivial
  rw [← closedOff_iff, ← closedOff_iff, ← hread.1, ← hread.2]
  constructor
  · rintro ⟨hout, herr, _⟩
    exact ⟨(hblocks.outOpen hc).symm.trans hout, (hblocks.errOpen hc).symm.trans herr⟩
  · rintro ⟨hout, herr⟩
    exact ⟨(hblocks.outOpen hc).trans hout, (hblocks.errOpen hc).trans herr,
      hblocks.reported hi hout herr⟩

/-- A child that writes a line with its line feed and exits. -/
theorem flushed_line :
    ∃ past s, system.Run past s ∧ s.listener = .finish ∧ s.wroteOut = [72, 105, 10] ∧
      flushed s := by
  have hline : ∃ past s, follow step [] (forked [10, 13]) [.create, .create, .listen, .listen,
      .childOut [72, 105, 10], .childExit (some 0), .listen, .handler, .listen, .readStdout 3,
      .listen, .listen] = some (past, s) ∧ s.listener = .finish ∧
      s.self.invalidInheritor = false ∧ s.wroteOut = [72, 105, 10] ∧ s.gotOut = s.wroteOut ∧
      s.gotErr = s.wroteErr ∧ s.wroteErr = [] ∧ s.self.blockDelims = [10, 13] :=
    ⟨_, _, rfl, rfl, rfl, rfl, rfl, rfl, rfl, rfl⟩
  obtain ⟨past, s, hfollow, hf, hi, hwrote, hout, herr, hnone, hdelims⟩ := hline
  have hrun : system.Run past s := (System.Run.start (forked_forked [10, 13])).follow hfollow
  refine ⟨past, s, hrun, hf, hwrote, (flushed_iff hrun hf hi ⟨hout, herr⟩).mpr ?_⟩
  rw [hwrote, hnone, hdelims]
  simp [closedOff]

/-- The same child without the line feed: all of its output is read, and none of
it is ever reported. -/
theorem unfinished_line_is_dropped :
    ∃ past s, system.Run past s ∧ s.listener = .finish ∧ s.self.invalidInheritor = false ∧
      complete s ∧ s.self.blockBufferOut = [72, 105] ∧ s.output = [] ∧ ¬ flushed s := by
  have hline : ∃ past s, follow step [] (forked [10, 13]) [.create, .create, .listen, .listen,
      .childOut [72, 105], .childExit (some 0), .listen, .handler, .listen, .readStdout 2,
      .listen, .listen] = some (past, s) ∧ s.listener = .finish ∧
      s.self.invalidInheritor = false ∧ (s.gotOut = s.wroteOut ∧ s.gotErr = s.wroteErr) ∧
      s.self.blockBufferOut = [72, 105] ∧ s.output = [] :=
      ⟨_, _, rfl, rfl, rfl, ⟨rfl, rfl⟩, rfl, rfl⟩
  obtain ⟨past, s, hfollow, hf, hi, hread, hopen, houtput⟩ := hline
  have hrun : system.Run past s := (System.Run.start (forked_forked [10, 13])).follow hfollow
  refine ⟨past, s, hrun, hf, hi, hread, hopen, houtput, ?_⟩
  rintro ⟨hempty, _⟩
  rw [hopen] at hempty
  cases hempty

end
end CkCore.Proofs.ProcessBlocks
