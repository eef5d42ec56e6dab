import Mathlib.Data.List.DropRight

set_option autoImplicit false

/-! # The names of the three files

`packer` makes the names of its index and runlength files with `std::filesystem::path`, by replacing
the extension of the log's name; the unpacker appends `.index` and `.runlength` to the name it is
given. The two agree on every name, also where the library sees no extension or an unexpected one
(`PackerFile.path_eq`). Two loggers are then given a file in common in five cases only
(`file_names_clash_iff`).

A name is its bytes, without the final zero. -/

namespace BinaryLog

/-- The dot. -/
def dot : UInt8 := 46

/-- The slash. -/
def slash : UInt8 := 47

/-! ## `std::filesystem::path` -/

/-- `path::filename`: what follows the last slash. -/
def filename (path : List UInt8) : List UInt8 := path.rtakeWhile (· ≠ slash)

/-- `path::extension`: the last dot of the filename and what follows it. -/
def extension (path : List UInt8) : List UInt8 :=
  if filename path = [dot] ∨ filename path = [dot, dot] then []
  else
    match (filename path).rdropWhile (· ≠ dot) with
    | [] => []
    -- a dot in front is not the start of an extension
    | [_] => []
    | _ => dot :: (filename path).rtakeWhile (· ≠ dot)

/-- `path::replace_extension`. -/
def replaceExtension (path replacement : List UInt8) : List UInt8 :=
  path.take (path.length - (extension path).length) ++
    (if replacement ≠ [] ∧ replacement.head? ≠ some dot then [dot] else []) ++ replacement

/-! ## `packer` -/

/-- The bytes of `.index`. -/
def indexSuffix : List UInt8 := [dot, 105, 110, 100, 101, 120]

/-- The bytes of `.runlength`. -/
def runlengthSuffix : List UInt8 := [dot, 114, 117, 110, 108, 101, 110, 103, 116, 104]

/-- `get_log_path`. -/
def getLogPath (path : List UInt8) : List UInt8 := path

/-- `get_index_path`. -/
def getIndexPath (path : List UInt8) : List UInt8 :=
  replaceExtension path (extension path ++ indexSuffix)

/-- `get_runlength_path`. -/
def getRunlengthPath (path : List UInt8) : List UInt8 :=
  replaceExtension path (extension path ++ runlengthSuffix)

/-- The files of a packer, in the order in which the constructor opens them. -/
inductive PackerFile where
  | log
  | index
  | runlength
  deriving DecidableEq, Repr

namespace PackerFile

/-- The name the packer opens. -/
def path : PackerFile → List UInt8 → List UInt8
  | .log => getLogPath
  | .index => getIndexPath
  | .runlength => getRunlengthPath

/-- What the unpacker appends to the name it is given. -/
def suffix : PackerFile → List UInt8
  | .log => []
  | .index => indexSuffix
  | .runlength => runlengthSuffix

end PackerFile

/-! ## The names agree -/

/-- The extension ends the name, and begins with a dot if there is one. -/
theorem extension_spec (path : List UInt8) :
    extension path <:+ path ∧ (extension path = [] ∨ (extension path).head? = some dot) := by
  unfold extension
  split
  · exact ⟨List.nil_suffix, .inl rfl⟩
  · split
    · exact ⟨List.nil_suffix, .inl rfl⟩
    · exact ⟨List.nil_suffix, .inl rfl⟩
    · next hnil _ =>
      refine ⟨List.IsSuffix.trans ?_ (List.rtakeWhile_suffix (· ≠ slash) path), .inr rfl⟩
      have hne : (filename path).rdropWhile (· ≠ dot) ≠ [] := fun h => hnil h
      -- what is dropped stops behind the last dot
      have hdot : ((filename path).rdropWhile (· ≠ dot)).getLast hne = dot := by
        simpa using List.rdropWhile_last_not (· ≠ dot) (filename path) hne
      have hstem := List.dropLast_append_getLast hne
      rw [hdot] at hstem
      refine ⟨((filename path).rdropWhile (· ≠ dot)).dropLast, ?_⟩
      rw [← List.singleton_append, ← List.append_assoc, hstem]
      exact List.rdropWhile_append_rtakeWhile

/-- To replace the extension by itself and more is to append. -/
theorem replaceExtension_extension_append (path : List UInt8) {suffix : List UInt8}
    (hsuffix : suffix.head? = some dot) :
    replaceExtension path (extension path ++ suffix) = path ++ suffix := by
  obtain ⟨⟨stem, hstem⟩, hhead⟩ := extension_spec path
  have hdot : (extension path ++ suffix).head? = some dot := by
    rcases hhead with h | h
    · rw [h, List.nil_append, hsuffix]
    · rw [List.head?_append, h, Option.some_or]
  have htake : path.take (path.length - (extension path).length) = stem := by
    have hlength := congrArg List.length hstem
    rw [List.length_append] at hlength
    rw [← hlength, Nat.add_sub_cancel]
    conv_lhs => rw [← hstem]
    exact List.take_left' rfl
  rw [replaceExtension, htake, if_neg (fun h => h.2 hdot), List.append_nil, ← List.append_assoc,
    hstem]

theorem PackerFile.path_eq (file : PackerFile) (path : List UInt8) :
    file.path path = path ++ file.suffix := by
  cases file with
  | log => exact (List.append_nil path).symm
  | index => exact replaceExtension_extension_append path rfl
  | runlength => exact replaceExtension_extension_append path rfl

theorem PackerFile.path_injective (path : List UInt8) :
    Function.Injective (fun file : PackerFile => file.path path) := by
  intro file file' h
  simp only [PackerFile.path_eq, List.append_cancel_left_eq] at h
  cases file <;> cases file' <;> first | rfl | exact absurd h (by decide)

/-! ## Names in common -/

/-- No name ends in both suffixes. -/
theorem append_indexSuffix_ne (path path' : List UInt8) :
    path ++ indexSuffix ≠ path' ++ runlengthSuffix := by
  intro h
  have hlast := congrArg List.getLast? h
  simp [indexSuffix, runlengthSuffix, List.getLast?_append] at hlast

/-- The names of a packer's files are its own name with the suffixes that the unpacker appends; and
    two packers are given a file name in common exactly when their names are the same, or one is the
    other with `.index` or `.runlength` appended. -/
theorem file_names_clash_iff (path path' : List UInt8) :
    (∀ file : PackerFile, file.path path = path ++ file.suffix) ∧
    ((∃ file file' : PackerFile, file.path path = file'.path path') ↔
      path = path' ∨ path = path' ++ indexSuffix ∨ path = path' ++ runlengthSuffix ∨
        path' = path ++ indexSuffix ∨ path' = path ++ runlengthSuffix) := by
  refine ⟨fun file => file.path_eq path, ?_, ?_⟩
  · rintro ⟨file, file', h⟩
    rw [PackerFile.path_eq, PackerFile.path_eq] at h
    cases file <;> cases file' <;>
      simp only [PackerFile.suffix, List.append_nil, List.append_cancel_right_eq] at h
    case log.log => exact .inl h
    case log.index => exact .inr (.inl h)
    case log.runlength => exact .inr (.inr (.inl h))
    case index.log => exact .inr (.inr (.inr (.inl h.symm)))
    case index.index => exact .inl h
    case index.runlength => exact absurd h (append_indexSuffix_ne path path')
    case runlength.log => exact .inr (.inr (.inr (.inr h.symm)))
    case runlength.index => exact absurd h.symm (append_indexSuffix_ne path' path)
    case runlength.runlength => exact .inl h
  · rintro (rfl | rfl | rfl | rfl | rfl)
    · exact ⟨.log, .log, rfl⟩
    · exact ⟨.log, .index, (PackerFile.path_eq .index path').symm⟩
    · exact ⟨.log, .runlength, (PackerFile.path_eq .runlength path').symm⟩
    · exact ⟨.index, .log, PackerFile.path_eq .index path⟩
    · exact ⟨.runlength, .log, PackerFile.path_eq .runlength path⟩

/-- `.hidden` and `a.b/c` have no extension, `d/.` neither, and `e.` has one. -/
example : [[46, 104], [97, 46, 98, 47, 99], [100, 47, 46], [101, 46]].map
    (fun path => (extension path, getIndexPath path == path ++ indexSuffix))
      = [([], true), ([], true), ([], true), ([46], true)] := by decide

end BinaryLog
