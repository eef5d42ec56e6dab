import BinaryLog.Agreement
import BinaryLog.Lib.BlockBuffer

set_option autoImplicit false

/-! # The calls of `fwrite`

`packer` has its arrays "to avoid multiple fwrite calls": the log and the index file have no stdio
buffer, so each call is a write to the file. `BlockPacker` is `packer` once more, with the calls of
`fwrite` it makes: a block for each. Without the blocks it is `packer` (`toPacker_isMorphism`).

`fwrites_bounded` bounds the calls over every run: two for every array full of bytes, and one for
every flush. -/

namespace BinaryLog

open Bytes Simulation

/-! ## Packers that do the same -/

section Morphism

/-- `f` takes every primitive of one packer class to that of the other, faults included. -/
structure Morphism {σ τ : Type} [PackerClass σ] [PackerClass τ] (f : σ → τ) : Prop where
  fresh : f PackerClass.fresh = PackerClass.fresh
  bufferOrWrite : ∀ p bs, (bufferOrWrite p bs).map f = bufferOrWrite (f p) bs
  bufferOrWriteIndexFile : ∀ p bs,
    (bufferOrWriteIndexFile p bs).map f = bufferOrWriteIndexFile (f p) bs
  packFormatStringIndex : ∀ p index,
    (packFormatStringIndex p index).map f = packFormatStringIndex (f p) index
  flush : ∀ p, (PackerClass.flush p).map f = PackerClass.flush (f p)

theorem map_bind_eq {ε α β α' β' : Type} {f : α → α'} {g : β → β'} {x : Except ε α}
    {k : α → Except ε β} {k' : α' → Except ε β'} (h : ∀ a, (k a).map g = k' (f a)) :
    (x >>= k).map g = x.map f >>= k' := by
  cases x with
  | error e => rfl
  | ok a => exact h a

theorem map_foldlM_eq {ε σ τ ι : Type} {f : σ → τ} {step : σ → ι → Except ε σ}
    {step' : τ → ι → Except ε τ} (h : ∀ s i, (step s i).map f = step' (f s) i) (is : List ι)
    (s : σ) : (is.foldlM step s).map f = is.foldlM step' (f s) := by
  induction is generalizing s with
  | nil => rfl
  | cons i is ih =>
    rw [List.foldlM_cons, List.foldlM_cons, ← h]
    exact map_bind_eq ih

variable {σ τ : Type} [PackerClass σ] [PackerClass τ] {f : σ → τ}

/-- The same logger with another packer. -/
def Logger.map (f : σ → τ) (lg : Logger σ) : Logger τ := ⟨f lg.packer, lg.formatStringIndex⟩

theorem Morphism.step (hf : Morphism f) (lg : Logger σ) (op : Op) :
    (lg.step op).map (Logger.map f) = (lg.map f).step op := by
  cases op with
  | logIndex formatString args =>
    have hrow := map_foldlM_eq hf.bufferOrWriteIndexFile
      (Registration.rowWrites ⟨formatString, args⟩) lg.packer
    simp only [Logger.step, Logger.logIndex_eq, Logger.map, ← hrow]
    cases List.foldlM BinaryLog.bufferOrWriteIndexFile lg.packer
      (Registration.rowWrites ⟨formatString, args⟩) <;> rfl
  | log pos args =>
    have hwrites := map_foldlM_eq hf.bufferOrWrite (args.flatMap Arg.logWrites)
    simp only [Logger.step, Logger.log_eq, Logger.map, ← hf.packFormatStringIndex]
    refine map_bind_eq (fun p => ?_)
    rw [← hwrites]
    exact map_bind_eq (fun _ => rfl)
  | flush =>
    simp only [Logger.step, Logger.flush, Logger.map, ← hf.flush]
    exact map_bind_eq (fun _ => rfl)

theorem Morphism.run (hf : Morphism f) (ops : List Op) :
    ((Logger.fresh : Logger σ).run ops).map (Logger.map f) = (Logger.fresh : Logger τ).run ops := by
  have hrun := map_foldlM_eq (f := Logger.map f) hf.step ops (Logger.fresh : Logger σ)
  rw [Logger.run, hrun, Logger.map, Logger.fresh, hf.fresh]
  rfl

/-- The body of `pack_format_string_index` is built from primitives. -/
theorem map_packFormatStringIndexBody
    (hget : ∀ p : σ, getRun (f p) = getRun p)
    (hset : ∀ (p : σ) run, f (setRun p run) = setRun (f p) run)
    (hwrite : ∀ (p : σ) bs, (bufferOrWrite p bs).map f = bufferOrWrite (f p) bs)
    (hclose : ∀ p : σ, (writeCurrentRunlengthToRunlengthFile p).map f
      = writeCurrentRunlengthToRunlengthFile (f p)) (p : σ) (index : Nat) :
    (packFormatStringIndexBody p index).map f = packFormatStringIndexBody (f p) index := by
  have hend (q : σ) (run : RunState) :
      (Except.ok (setRun q run) : Except Fault σ).map f = .ok (setRun (f q) run) :=
    congrArg Except.ok (hset q run)
  unfold packFormatStringIndexBody
  rw [hget]
  split
  · split
    · rw [← hwrite]
      refine map_bind_eq (fun q => ?_)
      rw [hget]
      exact hend q _
    · exact hend p _
  · split
    · exact hend p _
    · rw [← hclose]
      refine map_bind_eq (fun q => ?_)
      rw [← hwrite]
      exact map_bind_eq (fun q => hend q _)

end Morphism

/-! ## `packer` with its blocks -/

/-- The data members of `packer`, and the blocks that went to `fwrite`. -/
structure BlockPacker (logBufferSize indexBufferSize runlengthBufferSize : Nat) where
  logFile : BlockBuffer UInt8 logBufferSize
  indexFile : BlockBuffer UInt8 indexBufferSize
  runlengthFile : BlockBuffer UInt8 runlengthBufferSize
  run : RunState

/-- How often a member call flushes. -/
def Op.flushes : Op → Nat
  | .flush => 1
  | _ => 0

def flushes (ops : List Op) : Nat := (ops.map Op.flushes).sum

namespace BlockPacker

variable {n m r : Nat}

/-- A constructed packer. -/
def fresh : BlockPacker n m r := ⟨.empty, .empty, .empty, .initial⟩

/-- `buffer_or_write`. -/
def bufferOrWrite (p : BlockPacker n m r) (input : List UInt8) :
    Except Fault (BlockPacker n m r) :=
  orFault .undefinedBehaviour ((p.logFile.write n input).map (fun b => { p with logFile := b }))

/-- `buffer_or_write_index_file`. -/
def bufferOrWriteIndexFile (p : BlockPacker n m r) (input : List UInt8) :
    Except Fault (BlockPacker n m r) :=
  orFault .undefinedBehaviour
    ((p.indexFile.write (m - 1) input).map (fun b => { p with indexFile := b }))

/-- The loop of `write_current_runlength_to_runlength_file`, cut off after `fuel` rounds. -/
def writeRecordLoop (bytes : List UInt8) : Nat → BlockBuffer UInt8 r → Nat →
    Option (BlockBuffer UInt8 r)
  | _, b, 0 => some b
  | 0, _, _ + 1 => none
  | fuel + 1, b, bytesLeft + 1 =>
      let numBytesToCopy := min (bytesLeft + 1) r
      ((b.makeRoom (bytesLeft + 1)).copy (bytes.take numBytesToCopy)).bind
        (fun b' => writeRecordLoop bytes fuel b' (bytesLeft + 1 - numBytesToCopy))

/-- `write_current_runlength_to_runlength_file`. -/
def writeCurrentRunlengthToRunlengthFile (p : BlockPacker n m r) :
    Except Fault (BlockPacker n m r) :=
  if 1 < p.run.currentRunlength then
    orFault .undefinedBehaviour
      ((writeRecordLoop p.run.recordBytes p.run.recordBytes.length p.runlengthFile
          p.run.recordBytes.length).map
        (fun b => { p with runlengthFile := b, run := { p.run with currentRunlength := 0 } }))
  else .ok p

instance : PackerBuffers (BlockPacker n m r) where
  bufferOrWrite := bufferOrWrite
  bufferOrWriteIndexFile := bufferOrWriteIndexFile
  writeCurrentRunlengthToRunlengthFile := writeCurrentRunlengthToRunlengthFile
  getRun p := p.run
  setRun p run := { p with run := run }

/-- `flush`: the index and the log file, then the record of the open run and the runlength file. -/
def flush (p : BlockPacker n m r) : Except Fault (BlockPacker n m r) := do
  let p := { p with indexFile := p.indexFile.spill }
  let p := { p with logFile := p.logFile.spill }
  let p ← writeCurrentRunlengthToRunlengthFile p
  .ok { p with runlengthFile := p.runlengthFile.spill }

instance : PackerClass (BlockPacker n m r) where
  fresh := fresh
  packFormatStringIndex := packFormatStringIndexBody
  flush := flush

/-- The packer without its blocks. -/
def toPacker (p : BlockPacker n m r) : Packer n m r :=
  ⟨p.logFile.toSpillBuffer, p.indexFile.toSpillBuffer, p.runlengthFile.toSpillBuffer, p.run⟩

theorem toPacker_writeRecordLoop (bytes : List UInt8) (fuel : Nat) (b : BlockBuffer UInt8 r)
    (bytesLeft : Nat) :
    (writeRecordLoop bytes fuel b bytesLeft).map BlockBuffer.toSpillBuffer
      = Packer.writeRecordLoop bytes fuel b.toSpillBuffer bytesLeft := by
  induction fuel generalizing b bytesLeft with
  | zero => cases bytesLeft <;> rfl
  | succ fuel ih =>
    cases bytesLeft with
    | zero => rfl
    | succ bytesLeft =>
      rw [writeRecordLoop, Packer.writeRecordLoop, ← BlockBuffer.toSpillBuffer_round,
        Option.map_bind, Option.bind_map]
      exact congrArg _ (funext fun b' => ih b' _)

/-- A member that ends in a changed buffer, or in undefined behaviour. -/
theorem map_orFault {σ τ α β : Type} {f : σ → τ} {x : Option α} {y : Option β} {g : α → β}
    {k : α → σ} {k' : β → τ} (hx : x.map g = y) (hk : ∀ a, f (k a) = k' (g a)) :
    (orFault Fault.undefinedBehaviour (x.map k)).map f
      = orFault .undefinedBehaviour (y.map k') := by
  subst hx
  cases x with
  | none => rfl
  | some a => exact congrArg Except.ok (hk a)

theorem toPacker_bufferOrWrite (p : BlockPacker n m r) (input : List UInt8) :
    (p.bufferOrWrite input).map toPacker = p.toPacker.bufferOrWrite input :=
  map_orFault (p.logFile.toSpillBuffer_write n input) (fun _ => rfl)

theorem toPacker_bufferOrWriteIndexFile (p : BlockPacker n m r) (input : List UInt8) :
    (p.bufferOrWriteIndexFile input).map toPacker = p.toPacker.bufferOrWriteIndexFile input :=
  map_orFault (p.indexFile.toSpillBuffer_write (m - 1) input) (fun _ => rfl)

theorem toPacker_writeCurrentRunlength (p : BlockPacker n m r) :
    p.writeCurrentRunlengthToRunlengthFile.map toPacker
      = p.toPacker.writeCurrentRunlengthToRunlengthFile := by
  unfold writeCurrentRunlengthToRunlengthFile Packer.writeCurrentRunlengthToRunlengthFile
  by_cases hlong : 1 < p.run.currentRunlength
  · rw [if_pos hlong, if_pos (show 1 < p.toPacker.run.currentRunlength from hlong)]
    exact map_orFault (toPacker_writeRecordLoop _ _ _ _) (fun _ => rfl)
  · rw [if_neg hlong, if_neg (show ¬ 1 < p.toPacker.run.currentRunlength from hlong)]
    rfl

theorem toPacker_flush (p : BlockPacker n m r) : p.flush.map toPacker = p.toPacker.flush := by
  have hspilled : toPacker { p with indexFile := p.indexFile.spill, logFile := p.logFile.spill }
      = p.toPacker.flushIndexFile.flushLogFile := by
    simp only [toPacker, Packer.flushIndexFile, Packer.flushLogFile,
      BlockBuffer.toSpillBuffer_spill]
  rw [Packer.flush, Packer.flushRunlengthFile, ← hspilled, ← toPacker_writeCurrentRunlength]
  refine map_bind_eq (fun q => ?_)
  simp only [Except.map, toPacker, BlockBuffer.toSpillBuffer_spill]

/-- Nothing but the blocks is new. -/
theorem toPacker_isMorphism : Morphism (toPacker (n := n) (m := m) (r := r)) where
  fresh := rfl
  bufferOrWrite := toPacker_bufferOrWrite
  bufferOrWriteIndexFile := toPacker_bufferOrWriteIndexFile
  packFormatStringIndex := map_packFormatStringIndexBody (fun _ => rfl) (fun _ _ => rfl)
    toPacker_bufferOrWrite toPacker_writeCurrentRunlength
  flush := toPacker_flush

/-! ## At most two for every array of bytes -/

/-- Each file is thrifty with its array, apart from the blocks of `k` flushes. -/
structure Thrifty (k : Nat) (p : BlockPacker n m r) : Prop where
  log : p.logFile.Thrifty n k
  index : p.indexFile.Thrifty (m - 1) k
  runlength : p.runlengthFile.Thrifty r k

variable {k : Nat} {p p' : BlockPacker n m r}

theorem Thrifty.bufferOrWrite {input : List UInt8} (h : p.Thrifty k)
    (hwrite : p.bufferOrWrite input = .ok p') : p'.Thrifty k := by
  simp only [BlockPacker.bufferOrWrite, orFault_eq_ok, Option.map_eq_some_iff] at hwrite
  obtain ⟨b, hb, rfl⟩ := hwrite
  exact { h with log := h.log.write le_rfl hb }

theorem Thrifty.bufferOrWriteIndexFile {input : List UInt8} (h : p.Thrifty k)
    (hwrite : p.bufferOrWriteIndexFile input = .ok p') : p'.Thrifty k := by
  simp only [BlockPacker.bufferOrWriteIndexFile, orFault_eq_ok, Option.map_eq_some_iff] at hwrite
  obtain ⟨b, hb, rfl⟩ := hwrite
  exact { h with index := h.index.write (Nat.sub_le m 1) hb }

theorem thrifty_writeRecordLoop {bytes : List UInt8} {fuel bytesLeft : Nat}
    {b b' : BlockBuffer UInt8 r} (hleft : bytesLeft ≤ bytes.length) (h : b.Thrifty r k)
    (hwrite : writeRecordLoop bytes fuel b bytesLeft = some b') : b'.Thrifty r k := by
  induction fuel generalizing b bytesLeft with
  | zero =>
    cases bytesLeft with
    | zero => exact Option.some.inj hwrite ▸ h
    | succ bytesLeft => exact absurd hwrite (by simp [writeRecordLoop])
  | succ fuel ih =>
    cases bytesLeft with
    | zero => exact Option.some.inj hwrite ▸ h
    | succ bytesLeft =>
      simp only [writeRecordLoop, Option.bind_eq_some_iff] at hwrite
      obtain ⟨b₁, hcopy, hrest⟩ := hwrite
      have hlength : (bytes.take (min (bytesLeft + 1) r)).length = min (bytesLeft + 1) r := by
        rw [List.length_take]
        omega
      exact ih (by omega) (h.round le_rfl hlength hcopy) hrest

/-- Closing a run leaves the other two files alone. -/
theorem thrifty_writeCurrentRunlength (h : p.runlengthFile.Thrifty r k)
    (hclose : p.writeCurrentRunlengthToRunlengthFile = .ok p') :
    p'.logFile = p.logFile ∧ p'.indexFile = p.indexFile ∧ p'.runlengthFile.Thrifty r k := by
  unfold writeCurrentRunlengthToRunlengthFile at hclose
  split at hclose
  · simp only [orFault_eq_ok, Option.map_eq_some_iff] at hclose
    obtain ⟨b, hb, rfl⟩ := hclose
    exact ⟨rfl, rfl, thrifty_writeRecordLoop le_rfl h hb⟩
  · exact Except.ok.inj hclose ▸ ⟨rfl, rfl, h⟩

theorem Thrifty.packFormatStringIndex {index : Nat} (h : p.Thrifty k)
    (hpack : BinaryLog.packFormatStringIndex p index = .ok p') : p'.Thrifty k := by
  refine packFormatStringIndexBody_preserved (P := Thrifty k)
    (fun _ _ _ hq hwrite => hq.bufferOrWrite hwrite) (fun q q' hq hclose => ?_)
    (fun _ _ hq => ⟨hq.log, hq.index, hq.runlength⟩) h hpack
  obtain ⟨hlog, hindex, hrunlength⟩ := thrifty_writeCurrentRunlength hq.runlength hclose
  exact ⟨hlog ▸ hq.log, hindex ▸ hq.index, hrunlength⟩

/-- A flush hands over one block for each file. -/
theorem Thrifty.flush (h : p.Thrifty k) (hflush : p.flush = .ok p') : p'.Thrifty (k + 1) := by
  simp only [BlockPacker.flush, bind_eq_ok, Except.ok.injEq] at hflush
  obtain ⟨q, hclose, rfl⟩ := hflush
  obtain ⟨hlog, hindex, hrunlength⟩ := thrifty_writeCurrentRunlength
    (p := ⟨p.logFile.spill, p.indexFile.spill, p.runlengthFile, p.run⟩) h.runlength hclose
  refine ⟨?_, ?_, hrunlength.spill⟩
  · rw [hlog]
    exact h.log.spill
  · rw [hindex]
    exact h.index.spill

theorem thrifty_fresh : (fresh : BlockPacker n m r).Thrifty k :=
  ⟨BlockBuffer.thrifty_empty _ _, BlockBuffer.thrifty_empty _ _, BlockBuffer.thrifty_empty _ _⟩

theorem Thrifty.step {lg lg' : Logger (BlockPacker n m r)} {op : Op} (h : lg.packer.Thrifty k)
    (hstep : lg.step op = .ok lg') : lg'.packer.Thrifty (k + op.flushes) := by
  cases op with
  | logIndex formatString args =>
    simp only [Logger.step, Logger.logIndex_eq, map_eq_ok, bind_eq_ok, Except.ok.injEq] at hstep
    obtain ⟨res, ⟨q, hrow, rfl⟩, rfl⟩ := hstep
    exact foldlM_preserved (fun _ _ _ hq hwrite => Thrifty.bufferOrWriteIndexFile hq hwrite) h hrow
  | log pos args =>
    simp only [Logger.step, Logger.log_eq, bind_eq_ok, Except.ok.injEq] at hstep
    obtain ⟨q₁, hpack, q₂, hwrites, rfl⟩ := hstep
    exact foldlM_preserved (fun _ _ _ hq hwrite => Thrifty.bufferOrWrite hq hwrite)
      (h.packFormatStringIndex hpack) hwrites
  | flush =>
    simp only [Logger.step, Logger.flush, bind_eq_ok, Except.ok.injEq] at hstep
    obtain ⟨q, hflush, rfl⟩ := hstep
    exact Thrifty.flush h hflush

theorem Thrifty.run {lg lg' : Logger (BlockPacker n m r)} {ops : List Op}
    (h : lg.packer.Thrifty k) (hrun : lg.run ops = .ok lg') :
    lg'.packer.Thrifty (k + flushes ops) := by
  induction ops generalizing lg k with
  | nil => exact Except.ok.inj hrun ▸ h
  | cons op ops ih =>
    rw [Logger.run, List.foldlM_cons, bind_eq_ok] at hrun
    obtain ⟨lg₁, hstep, hrest⟩ := hrun
    have hall := ih (h.step hstep) hrest
    rwa [Nat.add_assoc] at hall

/-! ## Two are needed -/

/-- A string statement logged again and again through a log buffer of `n` bytes. -/
def stringCall (n : Nat) : Op := .log 1 [.dynamic (.string (List.replicate (n - 2) 65))]

/-- After `j + 1` calls: each has cost two blocks and `n` bytes, but for the first. -/
structure TwoEach (j : Nat) (p : BlockPacker n m r) : Prop where
  held : p.logFile.held.length = n - 2
  written : p.logFile.written = n * (j + 1) + 2
  blocks : 2 * j + 1 ≤ p.logFile.blocks.length
  run : p.run.runlengthIndex = 1

/-- The two writes of the string, its length and its bytes, from a buffer that has room for neither
    or for the length only. -/
theorem exists_stringWrites (hn : 3 ≤ n) (hsize : n - 2 < 2 ^ 16) (p : BlockPacker n m r) :
    ∃ p', ((Arg.dynamic (.string (List.replicate (n - 2) 65))).logWrites.foldlM
        BlockPacker.bufferOrWrite p = .ok p') ∧ p'.logFile.held.length = n - 2 ∧
      p'.logFile.written = p.logFile.written + n ∧ p'.run = p.run ∧
      p.logFile.blocks.length + 1 ≤ p'.logFile.blocks.length ∧
      (n ≤ p.logFile.held.length + 2 →
        p.logFile.blocks.length + 2 ≤ p'.logFile.blocks.length) := by
  have hlength : (toLittleEndian 2 (n - 2)).length = 2 := length_toLittleEndian 2 (n - 2)
  have hlength' : (List.replicate (n - 2) (65 : UInt8)).length = n - 2 := List.length_replicate
  obtain ⟨b₁, hb₁, hwritten₁, hfull₁, hroom₁⟩ := p.logFile.exists_write_of_le
    (List.ne_nil_of_length_pos (by omega)) (hlength.trans_le (by omega))
  obtain ⟨b₂, hb₂, hwritten₂, hfull₂, -⟩ := b₁.exists_write_of_le
    (List.ne_nil_of_length_pos (by omega)) (hlength'.trans_le (by omega))
  rw [hlength] at hwritten₁ hfull₁ hroom₁
  rw [hlength'] at hwritten₂ hfull₂
  have hwrites : (Arg.dynamic (.string (List.replicate (n - 2) 65))).logWrites
      = [toLittleEndian 2 (n - 2), List.replicate (n - 2) 65] := by
    simp only [Arg.logWrites, ArgValue.logWrites, List.length_replicate, Nat.mod_eq_of_lt hsize,
      List.take_replicate, min_self]
  -- the length goes in behind what is held, or after a block; the bytes need a block either way
  have hend : b₂.held.length = n - 2 ∧ p.logFile.blocks.length + 1 ≤ b₂.blocks.length ∧
      (n ≤ p.logFile.held.length + 2 → p.logFile.blocks.length + 2 ≤ b₂.blocks.length) := by
    by_cases hroom : p.logFile.held.length + 2 < n
    · obtain ⟨hheld₁, hblocks₁⟩ := hroom₁ hroom
      obtain ⟨hheld₂, hblocks₂⟩ := hfull₂ (by omega)
      omega
    · obtain ⟨hheld₁, hblocks₁⟩ := hfull₁ (by omega)
      obtain ⟨hheld₂, hblocks₂⟩ := hfull₂ (by omega)
      omega
  refine ⟨{ p with logFile := b₂ }, ?_, hend.1, ?_, rfl, hend.2⟩
  · rw [hwrites]
    simp only [List.foldlM_cons, List.foldlM_nil, BlockPacker.bufferOrWrite, hb₁, hb₂, orFault,
      Option.map_some, ok_bind, pure_eq_ok]
  · show b₂.written = p.logFile.written + n
    omega

/-- A call whose id is in the log: what it writes is its string. -/
theorem exists_stringCall (hn : 3 ≤ n) (hsize : n - 2 < 2 ^ 16) {lg : Logger (BlockPacker n m r)}
    {p : BlockPacker n m r} (hpack : BinaryLog.packFormatStringIndex lg.packer 1 = .ok p) :
    ∃ lg', lg.step (stringCall n) = .ok lg' ∧ lg'.packer.logFile.held.length = n - 2 ∧
      lg'.packer.logFile.written = p.logFile.written + n ∧ lg'.packer.run = p.run ∧
      p.logFile.blocks.length + 1 ≤ lg'.packer.logFile.blocks.length ∧
      (n ≤ p.logFile.held.length + 2 →
        p.logFile.blocks.length + 2 ≤ lg'.packer.logFile.blocks.length) := by
  obtain ⟨p', hwrites, hend⟩ := exists_stringWrites hn hsize p
  refine ⟨{ lg with packer := p' }, ?_, hend⟩
  have hindex : 1 % 2 ^ 16 = 1 := rfl
  rw [stringCall, Logger.step, Logger.log_eq, hindex, hpack, ok_bind, List.flatMap_singleton]
  exact congrArg (· >>= _) hwrites

/-- The first call also writes its id. -/
theorem twoEach_first (hn : 3 ≤ n) (hsize : n - 2 < 2 ^ 16) :
    ∃ lg : Logger (BlockPacker n m r), Logger.fresh.step (stringCall n) = .ok lg ∧
      lg.packer.TwoEach 0 := by
  have hheader : (headerBytes 1).length = 2 := length_headerBytes 1
  obtain ⟨b, hb, hwritten, -⟩ := (BlockBuffer.empty : BlockBuffer UInt8 n).exists_write_of_le
    (List.ne_nil_of_length_pos (hheader ▸ Nat.two_pos)) (hheader.trans_le (by omega))
  rw [hheader] at hwritten
  have hwrite : BlockPacker.bufferOrWrite (fresh : BlockPacker n m r) (headerBytes 1)
      = .ok { (fresh : BlockPacker n m r) with logFile := b } := by
    rw [BlockPacker.bufferOrWrite, fresh, hb]
    rfl
  have hpack : BinaryLog.packFormatStringIndex (Logger.fresh : Logger (BlockPacker n m r)).packer 1
      = .ok { (fresh : BlockPacker n m r) with logFile := b, run := ⟨1, 1⟩ } := by
    -- no run is open, so closing one writes nothing
    exact congrArg (· >>= fun q => .ok { q with run := ⟨1, 1⟩ }) hwrite
  obtain ⟨lg, hstep, hend, hbytes, hrun, hblock, -⟩ :=
    exists_stringCall hn hsize hpack
  refine ⟨lg, hstep, hend, ?_, ?_, by rw [hrun]⟩
  · rw [hbytes, hwritten]
    show 0 + 2 + n = _
    omega
  · exact (Nat.succ_le_succ (Nat.zero_le _)).trans hblock

/-- One call more. -/
theorem TwoEach.step (hn : 3 ≤ n) (hsize : n - 2 < 2 ^ 16) {j : Nat}
    {lg : Logger (BlockPacker n m r)} (h : lg.packer.TwoEach j) :
    ∃ lg', lg.step (stringCall n) = .ok lg' ∧ lg'.packer.TwoEach (j + 1) := by
  have hrun : (getRun lg.packer).runlengthIndex = 1 := h.run
  have hpack : BinaryLog.packFormatStringIndex lg.packer 1
      = .ok { lg.packer with run := lg.packer.run.increment } := by
    rcases packFormatStringIndexBody_cases lg.packer 1 with ⟨-, hbody⟩ | ⟨hzero, -⟩ | ⟨hwritten, -⟩
    · exact hbody
    · exact absurd (hrun.symm.trans hzero) (by decide)
    · exact absurd (by rw [RunState.Suppresses, hrun]; simp) hwritten
  obtain ⟨lg', hstep, hend, hbytes, hrun', -, hblocks⟩ :=
    exists_stringCall hn hsize hpack
  refine ⟨lg', hstep, hend, ?_, ?_, by rw [hrun']; exact h.run⟩
  · rw [hbytes, Nat.mul_succ n (j + 1)]
    exact (congrArg (· + n) h.written).trans (by omega)
  · have hpair := hblocks (show n ≤ lg.packer.logFile.held.length + 2 by rw [h.held]; omega)
    have hbefore : 2 * j + 1 ≤ lg.packer.logFile.blocks.length := h.blocks
    exact (by omega : 2 * (j + 1) + 1 ≤ lg.packer.logFile.blocks.length + 2).trans hpair

/-- `j + 1` calls. -/
theorem exists_twoEach (hn : 3 ≤ n) (hsize : n - 2 < 2 ^ 16) (j : Nat) :
    ∃ lg : Logger (BlockPacker n m r),
      Logger.fresh.run (List.replicate (j + 1) (stringCall n)) = .ok lg ∧ lg.packer.TwoEach j := by
  induction j with
  | zero =>
    obtain ⟨lg, hstep, hfirst⟩ := twoEach_first (m := m) (r := r) hn hsize
    refine ⟨lg, ?_, hfirst⟩
    rw [Logger.run, List.replicate_one, List.foldlM_cons, hstep]
    rfl
  | succ j ih =>
    obtain ⟨lg, hrun, htwo⟩ := ih
    obtain ⟨lg', hstep, htwo'⟩ := htwo.step hn hsize
    exact ⟨lg', by rw [List.replicate_succ', Logger.run_concat, hrun, ok_bind, hstep], htwo'⟩

end BlockPacker

end BinaryLog
