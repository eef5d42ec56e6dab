import BinaryLog.Args

set_option autoImplicit false

/-! # The unpacker (`index_file_parser.hpp`, `log_file_parser.hpp`)

A cursor into a mapped file is the unread rest of the file. A read, or a string view, past the end
of the mapping and a subscript past the index table are `none`. Printing an entry is recorded as the
format string and the typed argument values handed to `fmt::vformat`. -/

namespace BinaryLog

open Bytes

/-- The size of the next value of the type, which both parsers find out alike: a string has it in
    front, any other type has it in the table. -/
def readSize (type : Option FmtArgType) (file : List UInt8) : Option (Nat × List UInt8) :=
  if type = some .typeString then readLittleEndian 2 file else some (sizeofArgType type, file)

/-! ## Index file -/

/-- `index_file_parser::arg`. -/
structure IndexArg where
  type : Option FmtArgType
  isConstant : Bool
  argData : List UInt8
  deriving DecidableEq, Repr

/-- `index_file_parser::index_entry`. -/
structure IndexEntry where
  formatString : List UInt8
  args : List IndexArg
  deriving DecidableEq, Repr

/-- The second argument loop of `parse_entry`, for the types read by the first. -/
def parseArgs : List (Option FmtArgType) → List UInt8 → Option (List IndexArg × List UInt8)
  | [], file => some ([], file)
  | type :: types, file => do
      let (flag, file) ← readLittleEndian 1 file
      if flag ≠ 0 then
        let (size, file) ← readSize type file
        let (argData, file) ← readBytes size file
        let (args, file) ← parseArgs types file
        some (⟨type, true, argData⟩ :: args, file)
      else
        let (args, file) ← parseArgs types file
        some (⟨type, false, []⟩ :: args, file)

/-- `parse_entry`. -/
def parseEntry (file : List UInt8) : Option (IndexEntry × List UInt8) := do
  let (formatStringSize, file) ← readLittleEndian 2 file
  let (formatString, file) ← readBytes formatStringSize file
  let (numArgs, file) ← readLittleEndian 1 file
  if 0 < numArgs then
    let (types, file) ← readBytes numArgs file
    let (args, file) ← parseArgs (types.map FmtArgType.ofByte) file
    some (⟨formatString, args⟩, file)
  else some (⟨formatString, []⟩, file)

/-- The loop of `parse`, cut off after `fuel` entries. -/
def parseLoop : Nat → List UInt8 → Option (List IndexEntry)
  | _, [] => some []
  | 0, _ :: _ => none
  | fuel + 1, b :: bs => do
      let (entry, file) ← parseEntry (b :: bs)
      let entries ← parseLoop fuel file
      some (entry :: entries)

/-- `index_file_parser::parse`; an entry takes at least one byte, so the fuel is never short. -/
def parse (file : List UInt8) : Option (List IndexEntry) := parseLoop file.length file

/-! ## Log and runlength files -/

/-- What one `fmt::print` gets: the row it belongs to, its format string and the arguments put into
    the store. -/
structure LogEntry where
  index : Nat
  formatString : List UInt8
  args : List (FmtArgType × List UInt8)
  deriving DecidableEq, Repr

/-- `update_store`: a type outside the enumerators stores nothing. -/
def updateStore (store : List (FmtArgType × List UInt8)) (type : Option FmtArgType)
    (value : List UInt8) : List (FmtArgType × List UInt8) :=
  match type with
  | some type => store ++ [(type, value)]
  | none => store

/-- One argument: from the index row, or from the log file. -/
def parseLogArg (argInfo : IndexArg) (logfile : List UInt8) : Option (List UInt8 × List UInt8) :=
  if argInfo.isConstant then some (argInfo.argData, logfile)
  else do
    let (size, logfile) ← readSize argInfo.type logfile
    readBytes size logfile

/-- The loop over the arguments of one call. -/
def parseLogArgs (store : List (FmtArgType × List UInt8)) :
    List IndexArg → List UInt8 → Option (List (FmtArgType × List UInt8) × List UInt8)
  | [], logfile => some (store, logfile)
  | argInfo :: args, logfile => do
      let (value, logfile) ← parseLogArg argInfo logfile
      parseLogArgs (updateStore store argInfo.type value) args logfile

/-- The loop over the `runlength` calls of one entry of the log file. -/
def parseCalls (index : Nat) (entry : IndexEntry) :
    Nat → List UInt8 → Option (List LogEntry × List UInt8)
  | 0, logfile => some ([], logfile)
  | runlength + 1, logfile => do
      let (args, logfile) ← parseLogArgs [] entry.args logfile
      let (calls, logfile) ← parseCalls index entry runlength logfile
      some (⟨index, entry.formatString, args⟩ :: calls, logfile)

/-- `parse_and_print_log_entry` on the two cursors. -/
def parseAndPrintLogEntry (indexTable : List IndexEntry) (logfile runlengthfile : List UInt8) :
    Option (List LogEntry × List UInt8 × List UInt8) := do
  -- peeked at, not taken
  let (index, _) ← readLittleEndian 2 logfile
  let (index, runlength, logfile, runlengthfile) ←
    if runlengthfile = [] then do
      let (index, logfile) ← readLittleEndian 2 logfile
      some (index, 1, logfile, runlengthfile)
    else do
      let (indexInRunlengthFile, _) ← readLittleEndian 2 runlengthfile
      if indexInRunlengthFile = index then do
        let (_, logfile) ← readLittleEndian 2 logfile
        let (index, runlengthfile) ← readLittleEndian 2 runlengthfile
        let (runlength, runlengthfile) ← readLittleEndian 8 runlengthfile
        some (index, runlength, logfile, runlengthfile)
      else do
        let (index, logfile) ← readLittleEndian 2 logfile
        some (index, 1, logfile, runlengthfile)
  let entry ← indexTable[index]?
  let (calls, logfile) ← parseCalls index entry runlength logfile
  some (calls, logfile, runlengthfile)

/-- The loop of `parse_and_print`, cut off after `fuel` entries; also returns the unread rest of the
    runlength file. -/
def parseAndPrintLoop (indexTable : List IndexEntry) :
    Nat → List UInt8 → List UInt8 → Option (List LogEntry × List UInt8)
  | _, [], runlengthfile => some ([], runlengthfile)
  | 0, _ :: _, _ => none
  | fuel + 1, b :: bs, runlengthfile => do
      let (calls, logfile, runlengthfile) ←
        parseAndPrintLogEntry indexTable (b :: bs) runlengthfile
      let (rest, runlengthfile) ← parseAndPrintLoop indexTable fuel logfile runlengthfile
      some (calls ++ rest, runlengthfile)

/-- `log_file_parser::parse_and_print`; an entry takes at least one byte of the log file, so the
    fuel is never short. -/
def parseAndPrint (indexTable : List IndexEntry) (logfile runlengthfile : List UInt8) :
    Option (List LogEntry × List UInt8) :=
  parseAndPrintLoop indexTable logfile.length logfile runlengthfile

/-- What the `main` of the unpacker does with its two parsers: the index file first, then the other
    two. The index or the log may be empty here, whereas the constructors of the parsers throw then
    (`Env.unpackerMain`). -/
def unpack (indexfile logfile runlengthfile : List UInt8) :
    Option (List LogEntry × List UInt8) := do
  let indexTable ← parse indexfile
  parseAndPrint indexTable logfile runlengthfile

end BinaryLog
