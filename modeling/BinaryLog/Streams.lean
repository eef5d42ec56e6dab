import BinaryLog.Lib.Runs
import BinaryLog.Logger

set_option autoImplicit false

/-! # Three unbounded streams: what every packer implements

Away from buffer sizes, a logger appends to three streams: the log, the index and the runlength
records. `Streams.step` is that machine, with the run-length encoder as a pure function of its
`RunState`: an id header is written unless it is suppressed, and a run of two or more is recorded
when it is closed.

`Refinement` says that a packer class follows the machine through a relation `R`; `Sufficient` that
it does not fault as long as the streams stay within a budget `G`. Both are stated for the four
primitives a packer class supplies and lifted to whole runs of a logger (`Refinement.run`,
`Sufficient.run`). -/

namespace BinaryLog

open Bytes Simulation Runs

/-! ## What one member call writes -/

/-- A call of `log_index`. -/
structure Registration where
  formatString : CString
  args : List Arg

/-- A call of `log`, with the id as cast to 16 bits. -/
structure Call where
  index : Nat
  args : List Arg

/-- The byte strings of an index row. -/
def Registration.rowWrites (r : Registration) : List (List UInt8) :=
  r.formatString.formatStringWrites ++ [[UInt8.ofNat r.args.length]] ++
    if 0 < UInt8.ofNat r.args.length then
      r.args.map (fun arg => [arg.value.getArgType.toByte]) ++ r.args.flatMap Arg.constnessWrites
    else []

/-- The bytes of an index row. -/
def Registration.rowBytes (r : Registration) : List UInt8 := r.rowWrites.flatten

/-- The bytes a call's arguments take in the log. -/
def Call.argBytes (c : Call) : List UInt8 := (c.args.flatMap Arg.logWrites).flatten

theorem length_partialWrites {args : List Arg} {ws : List (List UInt8)}
    (h : ws <+: args.flatMap Arg.logWrites) (index : Nat) :
    ws.flatten.length ≤ (Call.argBytes ⟨index, args⟩).length := by
  obtain ⟨rest, hrest⟩ := h
  rw [Call.argBytes, ← hrest, List.flatten_append, List.length_append]
  exact Nat.le_add_right _ _

/-- The bytes of an id header. -/
def headerBytes (index : Nat) : List UInt8 := toLittleEndian 2 index

/-- The bytes of a runlength record. -/
def recordBytes (r : Nat × Nat) : List UInt8 := toLittleEndian 2 r.1 ++ toLittleEndian 8 r.2

@[simp] theorem length_headerBytes (index : Nat) : (headerBytes index).length = 2 :=
  length_toLittleEndian 2 index

@[simp] theorem length_recordBytes (r : Nat × Nat) : (recordBytes r).length = 10 := by
  simp [recordBytes]

/-! ## The run-length encoder -/

namespace RunState

/-- The id of the next entry is not written: it continues the open run. -/
def Suppresses (run : RunState) (index : Nat) : Prop :=
  if run.runlengthIndex = 0 ∧ index = 0 then run.currentRunlength ≠ 0
  else run.runlengthIndex = index

instance (run : RunState) (index : Nat) : Decidable (run.Suppresses index) := by
  unfold Suppresses; infer_instance

/-- The state after an entry with id `index`. -/
def next (run : RunState) (index : Nat) : RunState :=
  if run.Suppresses index then run.increment else ⟨index, 1⟩

/-- The record of the open run, if it is long enough to have one. -/
def pending (run : RunState) : List (Nat × Nat) :=
  if 1 < run.currentRunlength then [(run.runlengthIndex, run.currentRunlength)] else []

/-- The state after the open run has been closed by a flush: the id is kept. -/
def reset (run : RunState) : RunState :=
  if 1 < run.currentRunlength then { run with currentRunlength := 0 } else run

/-- The header written in front of an entry with id `index`. -/
def header (run : RunState) (index : Nat) : List UInt8 :=
  if run.Suppresses index then [] else headerBytes index

/-- The records written before an entry with id `index`. -/
def closing (run : RunState) (index : Nat) : List (Nat × Nat) :=
  if run.Suppresses index then [] else run.pending

/-- The bytes of an entry: its header if one is written, then its arguments. -/
def entryBytes (run : RunState) (c : Call) : List UInt8 := run.header c.index ++ c.argBytes

theorem length_header_le (run : RunState) (index : Nat) : (run.header index).length ≤ 2 := by
  rw [header]
  split
  · exact Nat.zero_le 2
  · exact (length_headerBytes index).le

end RunState

/-! ## The machine -/

/-- The three streams and the encoder's state. -/
structure Streams where
  log : List UInt8
  index : List UInt8
  runlength : List UInt8
  run : RunState

namespace Streams

def initial : Streams := ⟨[], [], [], .initial⟩

def appendLog (s : Streams) (bs : List UInt8) : Streams := { s with log := s.log ++ bs }

def appendIndex (s : Streams) (bs : List UInt8) : Streams := { s with index := s.index ++ bs }

/-- Close the open run. -/
def close (s : Streams) : Streams :=
  { s with runlength := s.runlength ++ s.run.pending.flatMap recordBytes, run := s.run.reset }

/-- Open an entry: header, and the record of the run it ends. -/
def packIndex (s : Streams) (index : Nat) : Streams :=
  { s with
    log := s.log ++ s.run.header index
    runlength := s.runlength ++ (s.run.closing index).flatMap recordBytes
    run := s.run.next index }

/-- One member call of a logger. -/
def step (s : Streams) : Op → Streams
  | .logIndex formatString args => s.appendIndex (Registration.rowBytes ⟨formatString, args⟩)
  | .log pos args => (s.packIndex (pos % 2 ^ 16)).appendLog (Call.argBytes ⟨pos % 2 ^ 16, args⟩)
  | .flush => s.close

/-- A sequence of member calls. -/
def runOps (s : Streams) (ops : List Op) : Streams := ops.foldl step s

@[simp] theorem runOps_nil (s : Streams) : s.runOps [] = s := rfl

@[simp] theorem runOps_cons (s : Streams) (op : Op) (ops : List Op) :
    s.runOps (op :: ops) = (s.step op).runOps ops := rfl

theorem runOps_append (s : Streams) (ops ops' : List Op) :
    s.runOps (ops ++ ops') = (s.runOps ops).runOps ops' := List.foldl_append

theorem foldl_appendLog (s : Streams) (ws : List (List UInt8)) :
    ws.foldl appendLog s = s.appendLog ws.flatten := by
  induction ws generalizing s with
  | nil => simp [appendLog]
  | cons w ws ih => simp [ih, appendLog]

theorem foldl_appendIndex (s : Streams) (ws : List (List UInt8)) :
    ws.foldl appendIndex s = s.appendIndex ws.flatten := by
  induction ws generalizing s with
  | nil => simp [appendIndex]
  | cons w ws ih => simp [ih, appendIndex]

end Streams

/-! ## Refinement -/

section Refinement

variable {σ : Type} [PackerClass σ]

/-- Every primitive of the packer class that returns does what the machine does. -/
structure Refinement (R : σ → Streams → Prop) : Prop where
  fresh : R PackerClass.fresh .initial
  bufferOrWrite : Tracks R bufferOrWrite Streams.appendLog
  bufferOrWriteIndexFile : Tracks R bufferOrWriteIndexFile Streams.appendIndex
  packFormatStringIndex : Tracks R packFormatStringIndex Streams.packIndex
  flush : ∀ p s p', R p s → PackerClass.flush p = .ok p' → R p' s.close

/-- Every primitive of the packer class returns as long as the streams stay within `G`. -/
structure Sufficient (R : σ → Streams → Prop) (G : Streams → Prop) : Prop where
  appendLog : Antitone G Streams.appendLog
  appendIndex : Antitone G Streams.appendIndex
  packIndex : Antitone G Streams.packIndex
  close : ∀ s, G s.close → G s
  bufferOrWrite : Progress R G bufferOrWrite Streams.appendLog
  bufferOrWriteIndexFile : Progress R G bufferOrWriteIndexFile Streams.appendIndex
  packFormatStringIndex : Progress R G packFormatStringIndex Streams.packIndex
  flush : ∀ p s, R p s → G s.close → ∃ p', PackerClass.flush p = .ok p'

/-! ## The shared body of `pack_format_string_index` -/

section Body

variable {R : σ → Streams → Prop} {G : Streams → Prop}

theorem Streams.packIndex_of_not_suppresses {s : Streams} {index : Nat}
    (h : ¬ s.run.Suppresses index) :
    s.packIndex index = { s.close.appendLog (headerBytes index) with run := ⟨index, 1⟩ } := by
  simp only [Streams.packIndex, RunState.header, RunState.closing, RunState.next, if_neg h,
    Streams.close, Streams.appendLog]

theorem Streams.packIndex_of_suppresses {s : Streams} {index : Nat}
    (h : s.run.Suppresses index) :
    s.packIndex index = { s with run := s.run.increment } := by
  simp only [Streams.packIndex, RunState.header, RunState.closing, RunState.next, if_pos h,
    List.append_nil, List.flatMap_nil]

/-- On the very first id nothing is open, so closing the run changes nothing. -/
theorem Streams.packIndex_of_first {s : Streams} (hindex : s.run.runlengthIndex = 0)
    (hlength : s.run.currentRunlength = 0) :
    s.packIndex 0 = { s.appendLog (headerBytes 0) with run := s.run.increment } := by
  have hwrites : ¬ s.run.Suppresses 0 := by
    rw [RunState.Suppresses, if_pos ⟨hindex, rfl⟩]
    exact fun h => h hlength
  have hpending : s.run.pending = [] := by
    rw [RunState.pending, if_neg (by omega)]
  have hnext : s.run.increment = ⟨0, 1⟩ := by
    rw [RunState.increment, hindex, hlength]
    rfl
  rw [Streams.packIndex_of_not_suppresses hwrites, hnext, Streams.close, hpending]
  simp [Streams.appendLog]

/-- The three things `pack_format_string_index` can do: go on with the open run, open the very first
    one, or close a run and open the next. -/
theorem packFormatStringIndexBody_cases (p : σ) (index : Nat) :
    ((getRun p).Suppresses index ∧
      packFormatStringIndexBody p index = .ok (setRun p (getRun p).increment)) ∨
    ((getRun p).runlengthIndex = 0 ∧ (getRun p).currentRunlength = 0 ∧ index = 0 ∧
      packFormatStringIndexBody p index = (bufferOrWrite p (headerBytes 0) >>= fun q =>
        .ok (setRun q (getRun q).increment))) ∨
    (¬ (getRun p).Suppresses index ∧
      packFormatStringIndexBody p index = (writeCurrentRunlengthToRunlengthFile p >>= fun q =>
        bufferOrWrite q (headerBytes index) >>= fun q => .ok (setRun q ⟨index, 1⟩))) := by
  rw [RunState.Suppresses, packFormatStringIndexBody]
  by_cases hfirst : (getRun p).runlengthIndex = 0 ∧ index = 0
  · rw [if_pos hfirst, if_pos hfirst]
    by_cases hlength : (getRun p).currentRunlength = 0
    · obtain ⟨hindex, rfl⟩ := hfirst
      exact .inr (.inl ⟨hindex, hlength, rfl, if_pos hlength⟩)
    · exact .inl ⟨hlength, if_neg hlength⟩
  · rw [if_neg hfirst, if_neg hfirst]
    by_cases hsame : (getRun p).runlengthIndex = index
    · exact .inl ⟨hsame, if_pos hsame⟩
    · exact .inr (.inr ⟨hsame, if_neg hsame⟩)

theorem tracks_packFormatStringIndexBody
    (hget : ∀ p s, R p s → getRun p = s.run)
    (hset : ∀ p s run, R p s → R (setRun p run) { s with run := run })
    (hwrite : Tracks R bufferOrWrite Streams.appendLog)
    (hclose : ∀ p s p', R p s → writeCurrentRunlengthToRunlengthFile p = .ok p' → R p' s.close) :
    Tracks R packFormatStringIndexBody Streams.packIndex := by
  intro p s index p' hrel hpack
  have hrun := hget p s hrel
  rcases packFormatStringIndexBody_cases p index with ⟨hsup, hbody⟩ |
    ⟨hindex, hlength, rfl, hbody⟩ | ⟨hwritten, hbody⟩
  · rw [hrun] at hsup hbody
    obtain rfl := Except.ok.inj (hbody.symm.trans hpack)
    rw [Streams.packIndex_of_suppresses hsup]
    exact hset p s _ hrel
  · rw [hrun] at hindex hlength
    simp only [hbody, bind_eq_ok, Except.ok.injEq] at hpack
    obtain ⟨p₁, hp₁, rfl⟩ := hpack
    have hrel₁ := hwrite p s _ p₁ hrel hp₁
    rw [Streams.packIndex_of_first hindex hlength, hget p₁ _ hrel₁]
    exact hset p₁ _ _ hrel₁
  · rw [hrun] at hwritten
    simp only [hbody, bind_eq_ok, Except.ok.injEq] at hpack
    obtain ⟨p₁, hp₁, p₂, hp₂, rfl⟩ := hpack
    rw [Streams.packIndex_of_not_suppresses hwritten]
    exact hset p₂ _ _ (hwrite p₁ _ _ p₂ (hclose p s p₁ hrel hp₁) hp₂)

theorem progress_packFormatStringIndexBody
    (hget : ∀ p s, R p s → getRun p = s.run)
    (hwrite : Progress R G bufferOrWrite Streams.appendLog)
    (hclose : ∀ p s p', R p s → writeCurrentRunlengthToRunlengthFile p = .ok p' → R p' s.close)
    (hcloses : ∀ p s, R p s → G s.close → ∃ p', writeCurrentRunlengthToRunlengthFile p = .ok p')
    (hG : Antitone G Streams.appendLog) (hrun : ∀ s run, G s → G { s with run := run }) :
    Progress R G packFormatStringIndexBody Streams.packIndex := by
  intro p s index hrel hroom
  rcases packFormatStringIndexBody_cases p index with ⟨-, hbody⟩ |
    ⟨hindex, hlength, rfl, hbody⟩ | ⟨hwritten, hbody⟩
  · exact ⟨_, hbody⟩
  · rw [hget p s hrel] at hindex hlength
    rw [Streams.packIndex_of_first hindex hlength] at hroom
    obtain ⟨p₁, hp₁⟩ := hwrite p s (headerBytes 0) hrel (hrun _ s.run hroom)
    exact ⟨_, by rw [hbody, hp₁, ok_bind]⟩
  · rw [hget p s hrel] at hwritten
    rw [Streams.packIndex_of_not_suppresses hwritten] at hroom
    have hroom' : G (s.close.appendLog (headerBytes index)) := hrun _ s.close.run hroom
    obtain ⟨p₁, hp₁⟩ := hcloses p s hrel (hG s.close _ hroom')
    obtain ⟨p₂, hp₂⟩ := hwrite p₁ s.close (headerBytes index) (hclose p s p₁ hrel hp₁) hroom'
    exact ⟨_, by rw [hbody, hp₁, ok_bind, hp₂, ok_bind]⟩

end Body

/-! ## Whole runs of a logger -/

theorem Logger.logIndex_eq (lg : Logger σ) (formatString : CString) (args : List Arg) :
    lg.logIndex formatString args =
      ((Registration.rowWrites ⟨formatString, args⟩).foldlM bufferOrWriteIndexFile lg.packer >>=
        fun p => .ok (⟨p, lg.formatStringIndex + 1⟩, lg.formatStringIndex + 1 - 1)) := by
  simp only [Logger.logIndex, Registration.rowWrites, writeFormatStringToIndexFile_eq_foldlM,
    writeNumArgsToIndexFile, List.foldlM_append, List.foldlM_cons, List.foldlM_nil, bind_assoc,
    pure_bind]
  refine bind_congr (fun p => bind_congr (fun p => ?_))
  by_cases hargs : 0 < UInt8.ofNat args.length
  · simp only [if_pos hargs, updateIndexFile_eq_foldlM, List.foldlM_append, bind_assoc]
  · simp only [if_neg hargs, List.foldlM_nil, pure_eq_ok]

theorem Logger.log_eq (lg : Logger σ) (pos : Nat) (args : List Arg) :
    lg.log pos args =
      (packFormatStringIndex lg.packer (pos % 2 ^ 16) >>= fun p =>
        (args.flatMap Arg.logWrites).foldlM bufferOrWrite p >>= fun p =>
          .ok { lg with packer := p }) := by
  rw [Logger.log]
  refine bind_congr (fun p => ?_)
  by_cases hargs : 0 < args.length
  · by_cases hconst : allArgsAreConstants args = true
    · simp only [if_pos hargs, if_pos hconst, logWrites_of_allArgsAreConstants hconst,
        List.foldlM_nil, pure_eq_ok]
    · simp only [if_pos hargs, if_neg hconst, updateLogFile_eq_foldlM]
  · obtain rfl := List.eq_nil_of_length_eq_zero (Nat.eq_zero_of_not_pos hargs)
    simp only [if_neg hargs, List.flatMap_nil, List.foldlM_nil, pure_eq_ok]

variable {R : σ → Streams → Prop} {G : Streams → Prop}

/-- One member call follows the machine. -/
theorem Refinement.step (hR : Refinement R) :
    Tracks (fun (lg : Logger σ) s => R lg.packer s) Logger.step Streams.step := by
  intro lg s op lg' hrel hstep
  cases op with
  | logIndex formatString args =>
    simp only [Logger.step, Logger.logIndex_eq, map_eq_ok, bind_eq_ok, Except.ok.injEq] at hstep
    obtain ⟨r, ⟨p, hp, rfl⟩, rfl⟩ := hstep
    have h := hR.bufferOrWriteIndexFile.foldlM hrel hp
    rwa [Streams.foldl_appendIndex] at h
  | log pos args =>
    simp only [Logger.step, Logger.log_eq, bind_eq_ok, Except.ok.injEq] at hstep
    obtain ⟨p₁, hp₁, p₂, hp₂, rfl⟩ := hstep
    have h := hR.bufferOrWrite.foldlM (hR.packFormatStringIndex _ s _ p₁ hrel hp₁) hp₂
    rwa [Streams.foldl_appendLog] at h
  | flush =>
    simp only [Logger.step, Logger.flush, bind_eq_ok, Except.ok.injEq] at hstep
    obtain ⟨p, hp, rfl⟩ := hstep
    exact hR.flush lg.packer s p hrel hp

/-- A run of a fresh logger that returns has written the machine's streams. -/
theorem Refinement.run (hR : Refinement R) {ops : List Op} {lg : Logger σ}
    (h : (Logger.fresh : Logger σ).run ops = .ok lg) : R lg.packer (Streams.initial.runOps ops) :=
  hR.step.foldlM (s := Logger.fresh) (a := .initial) hR.fresh h

theorem Sufficient.antitone_step (hG : Sufficient R G) : Antitone G Streams.step := by
  intro s op h
  cases op with
  | logIndex formatString args => exact hG.appendIndex s _ h
  | log pos args => exact hG.packIndex s _ (hG.appendLog _ _ h)
  | flush => exact hG.close s h

/-- One member call returns while the streams stay within the budget. -/
theorem Sufficient.step (hR : Refinement R) (hG : Sufficient R G) :
    Progress (fun (lg : Logger σ) s => R lg.packer s) G Logger.step Streams.step := by
  intro lg s op hrel hroom
  cases op with
  | logIndex formatString args =>
    obtain ⟨p, hp⟩ := hG.bufferOrWriteIndexFile.foldlM hR.bufferOrWriteIndexFile hG.appendIndex
      (Registration.rowWrites ⟨formatString, args⟩) hrel
      (by rw [Streams.foldl_appendIndex]; exact hroom)
    exact ⟨_, by rw [Logger.step, Logger.logIndex_eq, hp, ok_bind]; rfl⟩
  | log pos args =>
    obtain ⟨p₁, hp₁⟩ := hG.packFormatStringIndex lg.packer s (pos % 2 ^ 16) hrel
      (hG.appendLog _ _ hroom)
    obtain ⟨p₂, hp₂⟩ := hG.bufferOrWrite.foldlM hR.bufferOrWrite hG.appendLog
      (args.flatMap Arg.logWrites) (hR.packFormatStringIndex _ s _ p₁ hrel hp₁)
      (by rw [Streams.foldl_appendLog]; exact hroom)
    exact ⟨_, by rw [Logger.step, Logger.log_eq, hp₁, ok_bind, hp₂, ok_bind]⟩
  | flush =>
    obtain ⟨p, hp⟩ := hG.flush lg.packer s hrel hroom
    exact ⟨_, by rw [Logger.step, Logger.flush, hp, ok_bind]⟩

/-- A run of a fresh logger returns while the streams it produces stay within the budget. -/
theorem Sufficient.run (hR : Refinement R) (hG : Sufficient R G) (ops : List Op)
    (hroom : G (Streams.initial.runOps ops)) :
    ∃ lg, (Logger.fresh : Logger σ).run ops = .ok lg :=
  (Sufficient.step hR hG).foldlM (s := Logger.fresh) (a := .initial) hR.step hG.antitone_step ops
    hR.fresh hroom

/-! ## Properties of the packer alone -/

/-- A property of the packer that its primitives keep when they return. -/
structure Preserved (P : σ → Prop) : Prop where
  bufferOrWrite : ∀ p bs p', P p → bufferOrWrite p bs = .ok p' → P p'
  bufferOrWriteIndexFile : ∀ p bs p', P p → bufferOrWriteIndexFile p bs = .ok p' → P p'
  packFormatStringIndex : ∀ p index p', P p → packFormatStringIndex p index = .ok p' → P p'
  flush : ∀ p p', P p → PackerClass.flush p = .ok p' → P p'

theorem packFormatStringIndexBody_preserved {P : σ → Prop}
    (hwrite : ∀ p bs p', P p → BinaryLog.bufferOrWrite p bs = .ok p' → P p')
    (hclose : ∀ p p', P p → writeCurrentRunlengthToRunlengthFile p = .ok p' → P p')
    (hset : ∀ p run, P p → P (setRun p run)) {p p' : σ} {index : Nat} (hp : P p)
    (h : packFormatStringIndexBody p index = .ok p') : P p' := by
  rcases packFormatStringIndexBody_cases p index with ⟨-, hbody⟩ | ⟨-, -, -, hbody⟩ | ⟨-, hbody⟩
  · exact Except.ok.inj (hbody.symm.trans h) ▸ hset p _ hp
  · simp only [hbody, bind_eq_ok, Except.ok.injEq] at h
    obtain ⟨p₁, hp₁, rfl⟩ := h
    exact hset p₁ _ (hwrite p _ p₁ hp hp₁)
  · simp only [hbody, bind_eq_ok, Except.ok.injEq] at h
    obtain ⟨p₁, hp₁, p₂, hp₂, rfl⟩ := h
    exact hset p₂ _ (hwrite p₁ _ p₂ (hclose p p₁ hp hp₁) hp₂)

theorem Preserved.step {P : σ → Prop} (hP : Preserved P) {lg lg' : Logger σ} {op : Op}
    (hp : P lg.packer) (h : lg.step op = .ok lg') : P lg'.packer := by
  cases op with
  | logIndex formatString args =>
    simp only [Logger.step, Logger.logIndex_eq, map_eq_ok, bind_eq_ok, Except.ok.injEq] at h
    obtain ⟨res, ⟨p, hrow, rfl⟩, rfl⟩ := h
    exact foldlM_preserved hP.bufferOrWriteIndexFile hp hrow
  | log pos args =>
    simp only [Logger.step, Logger.log_eq, bind_eq_ok, Except.ok.injEq] at h
    obtain ⟨p₁, hp₁, p₂, hp₂, rfl⟩ := h
    exact foldlM_preserved hP.bufferOrWrite (hP.packFormatStringIndex _ _ p₁ hp hp₁) hp₂
  | flush =>
    simp only [Logger.step, Logger.flush, bind_eq_ok, Except.ok.injEq] at h
    obtain ⟨p, hp', rfl⟩ := h
    exact hP.flush _ p hp hp'

theorem Preserved.run {P : σ → Prop} (hP : Preserved P) {lg lg' : Logger σ} {ops : List Op}
    (hp : P lg.packer) (h : lg.run ops = .ok lg') : P lg'.packer :=
  foldlM_preserved (P := fun lg : Logger σ => P lg.packer) (fun _ _ _ hp h => hP.step hp h) hp h

end Refinement

end BinaryLog
