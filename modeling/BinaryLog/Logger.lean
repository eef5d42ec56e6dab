import BinaryLog.Packer
import BinaryLog.RingbufferPacker
import Mathlib.Logic.Function.Basic

set_option autoImplicit false

/-! # `binary_log` and the `BINARY_LOG` macro (`binary_log.hpp`)

`binary_log` is a template over its packer; `PackerClass` lists what it calls. A program using one
logger is a list of `Op`s on it; a program using the macro is a list of executions of call sites,
each of which owns a function-local static with its row id (`Statics`). -/

namespace BinaryLog

open Simulation

/-- The packer members `binary_log` calls beyond the shared writers. -/
class PackerClass (σ : Type) extends PackerBuffers σ where
  /-- The packer right after construction. -/
  fresh : σ
  packFormatStringIndex : σ → Nat → Except Fault σ
  flush : σ → Except Fault σ

export PackerClass (packFormatStringIndex)

instance (n m r : Nat) : PackerClass (Packer n m r) where
  fresh := Packer.fresh
  packFormatStringIndex := Packer.packFormatStringIndex
  flush := Packer.flush

instance (n m r : Nat) : PackerClass (RingbufferPacker n m r) where
  fresh := RingbufferPacker.fresh
  packFormatStringIndex := RingbufferPacker.packFormatStringIndex
  flush := RingbufferPacker.flush

/-- The data members of `binary_log<Packer>`. -/
structure Logger (σ : Type) where
  packer : σ
  /-- `m_format_string_index`, a `uint8_t`. -/
  formatStringIndex : UInt8
  deriving DecidableEq

namespace Logger

variable {σ : Type} [PackerClass σ]

/-- A constructed logger. -/
def fresh : Logger σ := ⟨PackerClass.fresh, 0⟩

/-- `log_index`: append a row to the index, return its id. -/
def logIndex (lg : Logger σ) (formatString : CString) (args : List Arg) :
    Except Fault (Logger σ × UInt8) := do
  let numArgs := UInt8.ofNat args.length
  let formatStringIndex := lg.formatStringIndex + 1
  let p ← writeFormatStringToIndexFile lg.packer formatString
  let p ← writeNumArgsToIndexFile p numArgs
  let p ← if 0 < numArgs then updateIndexFile p args else .ok p
  .ok (⟨p, formatStringIndex⟩, formatStringIndex - 1)

/-- `log`. -/
def log (lg : Logger σ) (pos : Nat) (args : List Arg) : Except Fault (Logger σ) := do
  let currentIndex := pos % 2 ^ 16
  let p ← packFormatStringIndex lg.packer currentIndex
  -- only arguments that are not constants go to the log
  let p ←
    if 0 < args.length then
      if allArgsAreConstants args then .ok p else updateLogFile p args
    else .ok p
  .ok { lg with packer := p }

/-- `flush`. -/
def flush (lg : Logger σ) : Except Fault (Logger σ) := do
  let p ← PackerClass.flush lg.packer
  .ok { lg with packer := p }

/-- The destructors: `~binary_log` flushes, and so does the packer's own where there is one. -/
def destroy (lg : Logger σ) : Except Fault (Logger σ) := do
  let lg ← lg.flush
  lg.flush

end Logger

/-! ## Runs of one logger -/

/-- A member call on a logger. -/
inductive Op where
  | logIndex (formatString : CString) (args : List Arg)
  | log (pos : Nat) (args : List Arg)
  | flush

section Run

variable {σ : Type} [PackerClass σ]

/-- One member call; the id `log_index` returns is kept by `Logger.runIds` only. -/
def Logger.step (lg : Logger σ) : Op → Except Fault (Logger σ)
  | .logIndex formatString args => (lg.logIndex formatString args).map Prod.fst
  | .log pos args => lg.log pos args
  | .flush => lg.flush

/-- A sequence of member calls. -/
def Logger.run (lg : Logger σ) (ops : List Op) : Except Fault (Logger σ) :=
  ops.foldlM Logger.step lg

theorem Logger.run_append (lg : Logger σ) (ops ops' : List Op) :
    lg.run (ops ++ ops') = lg.run ops >>= fun lg => lg.run ops' :=
  List.foldlM_append

theorem Logger.run_concat (lg : Logger σ) (ops : List Op) (op : Op) :
    lg.run (ops ++ [op]) = lg.run ops >>= fun lg => lg.step op := by
  rw [Logger.run_append]
  refine bind_congr (fun lg => ?_)
  rw [Logger.run, List.foldlM_cons]
  exact bind_pure _

/-- The ids the `log_index` calls among `ops` return, in order. -/
def Logger.runIds (lg : Logger σ) : List Op → Except Fault (List UInt8)
  | [] => .ok []
  | .logIndex formatString args :: ops => do
      let (lg, id) ← lg.logIndex formatString args
      let ids ← Logger.runIds lg ops
      .ok (id :: ids)
  | op :: ops => do
      let lg ← lg.step op
      Logger.runIds lg ops

/-! ## The macro -/

/-- The function-local statics `__binary_log_format_string_id_pos`, one for each call site:
    uninitialised, or the row id as a `std::size_t`. -/
abbrev Statics (S : Type) := S → Option Nat

/-- One execution of `BINARY_LOG(lg, formatString, args...)` at call site `site`. The static is
    initialised by `log_index` on the first execution only, whatever the logger. -/
def binaryLog {S : Type} [DecidableEq S] (statics : Statics S) (lg : Logger σ) (site : S)
    (formatString : CString) (args : List Arg) : Except Fault (Statics S × Logger σ) :=
  match statics site with
  | some pos => do
      let lg ← lg.log pos args
      .ok (statics, lg)
  | none => do
      let (lg, id) ← lg.logIndex formatString args
      let lg ← lg.log id.toNat args
      .ok (Function.update statics site (some id.toNat), lg)

end Run

end BinaryLog
