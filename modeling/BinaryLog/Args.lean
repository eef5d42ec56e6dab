import BinaryLog.Lib.Bytes

set_option autoImplicit false

/-! # Argument types and values (`detail/args.hpp`, `constant.hpp`)

The writer picks a layout per C++ type at compile time (`ScalarType.sizeof`, the two string
overloads); the parsers work from the type byte of the index row and the size table
`sizeofArgType`. Both sides are kept here under their own definitions, with the facts that they
agree. Values are their object representations, i.e. bytes. -/

namespace BinaryLog

/-- `enum class fmt_arg_type`. -/
inductive FmtArgType where
  | typeBool
  | typeChar
  | typeUint8
  | typeUint16
  | typeUint32
  | typeUint64
  | typeUint128
  | typeInt8
  | typeInt16
  | typeInt32
  | typeInt64
  | typeInt128
  | typeFloat
  | typeDouble
  | typeString
  deriving DecidableEq, Repr

/-- The enumerators in declaration order. -/
def FmtArgType.enumerators : List FmtArgType :=
  [.typeBool, .typeChar, .typeUint8, .typeUint16, .typeUint32, .typeUint64, .typeUint128,
    .typeInt8, .typeInt16, .typeInt32, .typeInt64, .typeInt128, .typeFloat, .typeDouble,
    .typeString]

/-- `static_cast<uint8_t>(T)`: the position of the enumerator. -/
def FmtArgType.toByte (type : FmtArgType) : UInt8 :=
  UInt8.ofNat (FmtArgType.enumerators.idxOf type)

/-- `static_cast<fmt_arg_type>(byte)`; `none` is a value outside the enumerators. -/
def FmtArgType.ofByte (byte : UInt8) : Option FmtArgType :=
  FmtArgType.enumerators[byte.toNat]?

@[simp] theorem FmtArgType.ofByte_toByte (type : FmtArgType) :
    FmtArgType.ofByte type.toByte = some type := by
  cases type <;> rfl

/-- `sizeof_arg_type`, the parsers' size table; its `default` branch is `none`. -/
def sizeofArgType : Option FmtArgType → Nat
  | some .typeBool => 1
  | some .typeChar => 1
  | some .typeUint8 => 1
  | some .typeUint16 => 2
  | some .typeUint32 => 4
  | some .typeUint64 => 8
  | some .typeUint128 => 16
  | some .typeInt8 => 1
  | some .typeInt16 => 2
  | some .typeInt32 => 4
  | some .typeInt64 => 8
  | some .typeInt128 => 16
  | some .typeFloat => 4
  | some .typeDouble => 8
  | some .typeString => 1
  | none => 0

/-- The numeric argument types the writers have overloads for (`std::size_t` is `uint64`). -/
inductive ScalarType where
  | bool
  | char
  | uint8
  | uint16
  | uint32
  | uint64
  | int8
  | int16
  | int32
  | int64
  | float
  | double
  deriving DecidableEq, Repr

/-- `sizeof(T)`. -/
def ScalarType.sizeof : ScalarType → Nat
  | .bool | .char | .uint8 | .int8 => 1
  | .uint16 | .int16 => 2
  | .uint32 | .int32 | .float => 4
  | .uint64 | .int64 | .double => 8

theorem ScalarType.sizeof_le (type : ScalarType) : type.sizeof ≤ 8 := by
  cases type <;> decide

/-- `get_arg_type<T>()` for the numeric types. -/
def ScalarType.getArgType : ScalarType → FmtArgType
  | .bool => .typeBool
  | .char => .typeChar
  | .uint8 => .typeUint8
  | .uint16 => .typeUint16
  | .uint32 => .typeUint32
  | .uint64 => .typeUint64
  | .int8 => .typeInt8
  | .int16 => .typeInt16
  | .int32 => .typeInt32
  | .int64 => .typeInt64
  | .float => .typeFloat
  | .double => .typeDouble

/-- The parsers' table has the size the writer used. -/
@[simp] theorem sizeofArgType_getArgType (type : ScalarType) :
    sizeofArgType (some type.getArgType) = type.sizeof := by
  cases type <;> rfl

theorem ScalarType.getArgType_ne_typeString (type : ScalarType) :
    type.getArgType ≠ .typeString := by
  cases type <;> simp [ScalarType.getArgType]

/-! ## C strings -/

/-- `std::strlen` on the memory from the pointer on. -/
def strlen : List UInt8 → Nat
  | [] => 0
  | b :: bs => if b = 0 then 0 else strlen bs + 1

/-- A NUL-terminated string: its bytes up to the terminator. -/
structure CString where
  bytes : List UInt8
  /-- No byte before the terminator is NUL. -/
  noNul : ∀ b ∈ bytes, b ≠ 0

/-- A string literal: a pointer to it sees the bytes up to the first NUL. -/
def CString.literal (bytes : List UInt8) : CString :=
  ⟨bytes.takeWhile (fun b => b != 0),
    fun b hb => bne_iff_ne.1 (List.all_eq_true.1 List.all_takeWhile b hb)⟩

/-- The memory a `const char*` to the string points at. -/
def CString.memory (s : CString) : List UInt8 := s.bytes ++ [0]

theorem strlen_append_nul {bs : List UInt8} (h : ∀ b ∈ bs, b ≠ 0) :
    strlen (bs ++ [0]) = bs.length := by
  induction bs with
  | nil => simp [strlen]
  | cons b bs ih =>
    have hb : b ≠ 0 := h b List.mem_cons_self
    simp [strlen, hb, ih (fun c hc => h c (List.mem_cons_of_mem _ hc))]

@[simp] theorem CString.strlen_memory (s : CString) : strlen s.memory = s.bytes.length :=
  strlen_append_nul s.noNul

theorem CString.take_memory (s : CString) {n : Nat} (h : n ≤ s.bytes.length) :
    s.memory.take n = s.bytes.take n :=
  List.take_append_of_le_length h

/-! ## Argument values -/

/-- The C++ type of an argument; `string` stands for `std::string` and `std::string_view`, which
    share one overload in each writer. -/
inductive CppType where
  | scalar (type : ScalarType)
  | cstr
  | string
  deriving DecidableEq, Repr

/-- `get_arg_type<T>()`. -/
def CppType.getArgType : CppType → FmtArgType
  | .scalar type => type.getArgType
  | .cstr => .typeString
  | .string => .typeString

/-- An argument value; a scalar carries exactly `sizeof(T)` bytes. -/
inductive ArgValue where
  | scalar (type : ScalarType) (bytes : { bs : List UInt8 // bs.length = type.sizeof })
  | cstr (input : CString)
  | string (input : List UInt8)

/-- A value of type `uint8_t`. -/
def ArgValue.uint8 (b : UInt8) : ArgValue := .scalar .uint8 ⟨[b], rfl⟩

def ArgValue.cppType : ArgValue → CppType
  | .scalar type _ => .scalar type
  | .cstr _ => .cstr
  | .string _ => .string

/-- `get_arg_type` of the value's type. -/
def ArgValue.getArgType (v : ArgValue) : FmtArgType := v.cppType.getArgType

/-- The value as bytes: the object representation, or the characters of a string. -/
def ArgValue.bytes : ArgValue → List UInt8
  | .scalar _ bytes => bytes.val
  | .cstr input => input.bytes
  | .string input => input

/-- Strings whose length the 16-bit length field can hold. -/
def ArgValue.Fits : ArgValue → Prop
  | .scalar _ _ => True
  | .cstr input => input.bytes.length ≤ 65535
  | .string input => input.length ≤ 65535

theorem ArgValue.fits_iff (value : ArgValue) : value.Fits ↔ value.bytes.length ≤ 65535 := by
  cases value with
  | scalar type input =>
    have hsize : input.val.length ≤ 65535 := input.2.trans_le (type.sizeof_le.trans (by decide))
    exact ⟨fun _ => hsize, fun _ => trivial⟩
  | cstr input => exact Iff.rfl
  | string input => exact Iff.rfl

instance (value : ArgValue) : Decidable value.Fits := by
  cases value <;> unfold ArgValue.Fits <;> infer_instance

/-- One format argument of a call: `binary_log::constant<T>` or anything else. -/
inductive Arg where
  | dynamic (value : ArgValue)
  | constant (value : ArgValue)

def Arg.value : Arg → ArgValue
  | .dynamic value => value
  | .constant value => value

/-- `is_specialization<T, constant>`. -/
def Arg.isConstant : Arg → Bool
  | .dynamic _ => false
  | .constant _ => true

/-- `all_args_are_constants<Args...>()`. -/
def allArgsAreConstants (args : List Arg) : Bool := args.all Arg.isConstant

/-- The typed value a reader should see for the argument. -/
def Arg.typedValue (arg : Arg) : FmtArgType × List UInt8 := (arg.value.getArgType, arg.value.bytes)

end BinaryLog
