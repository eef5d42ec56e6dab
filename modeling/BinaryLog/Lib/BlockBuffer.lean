import BinaryLog.Lib.SpillBuffer

set_option autoImplicit false

/-! # A bounded buffer and the blocks it hands over

`BlockBuffer α cap` is a `SpillBuffer` that remembers how its items went to the sink: the used
prefix of the array at a time, also when the array is empty. `toSpillBuffer` forgets the blocks, and
a write does the same to both (`toSpillBuffer_write`).

How many blocks there are is amortised over the items written: a round that hands over a block
either copies a whole chunk, or finds the array so full that the items held and those copied make up
a chunk (`Thrifty`). -/

universe u

/-- The blocks handed over so far, the used prefix of the array, and the bounds the array gives. -/
structure BlockBuffer (α : Type u) (cap : Nat) where
  blocks : List (List α)
  blocks_le : ∀ block ∈ blocks, block.length ≤ cap
  held : List α
  held_le : held.length ≤ cap

namespace BlockBuffer

variable {α : Type u} {cap : Nat}

/-- An array with nothing in it, and nothing handed over. -/
def empty : BlockBuffer α cap := ⟨[], fun _ h => absurd h List.not_mem_nil, [], Nat.zero_le cap⟩

/-- The buffer without its blocks. -/
def toSpillBuffer (b : BlockBuffer α cap) : SpillBuffer α cap :=
  ⟨b.blocks.flatten, b.held, b.held_le⟩

/-- Hand the used prefix over as one block. -/
def spill (b : BlockBuffer α cap) : BlockBuffer α cap where
  blocks := b.blocks ++ [b.held]
  blocks_le := by
    intro block hblock
    rcases List.mem_append.1 hblock with hblock | hblock
    · exact b.blocks_le block hblock
    · exact List.mem_singleton.1 hblock ▸ b.held_le
  held := []
  held_le := Nat.zero_le cap

/-- Copy `xs` behind the used prefix; `none` if it does not fit the array. -/
def copy (b : BlockBuffer α cap) (xs : List α) : Option (BlockBuffer α cap) :=
  if h : (b.held ++ xs).length ≤ cap then some ⟨b.blocks, b.blocks_le, b.held ++ xs, h⟩ else none

/-- The spill test at the head of each round, with `left` items still to be written. -/
def makeRoom (b : BlockBuffer α cap) (left : Nat) : BlockBuffer α cap :=
  if cap ≤ b.held.length + left then b.spill else b

/-- The chunked write loop, cut off after `fuel` rounds. -/
def writeLoop (chunk : Nat) : Nat → BlockBuffer α cap → List α → Option (BlockBuffer α cap)
  | _, b, [] => some b
  | 0, _, _ :: _ => none
  | fuel + 1, b, x :: xs =>
      ((b.makeRoom (x :: xs).length).copy ((x :: xs).take chunk)).bind
        (fun b' => writeLoop chunk fuel b' ((x :: xs).drop chunk))

/-- Write `xs`, at most `chunk` items a round. -/
def write (chunk : Nat) (b : BlockBuffer α cap) (xs : List α) : Option (BlockBuffer α cap) :=
  writeLoop chunk xs.length b xs

/-! ## Without the blocks -/

@[simp] theorem toSpillBuffer_empty : (empty : BlockBuffer α cap).toSpillBuffer = .empty := rfl

@[simp] theorem toSpillBuffer_spill (b : BlockBuffer α cap) :
    b.spill.toSpillBuffer = b.toSpillBuffer.spill := by
  simp [toSpillBuffer, spill, SpillBuffer.spill]

theorem toSpillBuffer_copy (b : BlockBuffer α cap) (xs : List α) :
    (b.copy xs).map toSpillBuffer = b.toSpillBuffer.copy xs := by
  unfold copy SpillBuffer.copy
  by_cases h : (b.held ++ xs).length ≤ cap
  · rw [dif_pos h, dif_pos (show (b.toSpillBuffer.held ++ xs).length ≤ cap from h)]
    rfl
  · rw [dif_neg h, dif_neg (show ¬ (b.toSpillBuffer.held ++ xs).length ≤ cap from h)]
    rfl

theorem toSpillBuffer_makeRoom (b : BlockBuffer α cap) (left : Nat) :
    (b.makeRoom left).toSpillBuffer = b.toSpillBuffer.makeRoom left := by
  unfold makeRoom SpillBuffer.makeRoom
  by_cases h : cap ≤ b.held.length + left
  · rw [if_pos h, if_pos (show cap ≤ b.toSpillBuffer.held.length + left from h),
      toSpillBuffer_spill]
  · rw [if_neg h, if_neg (show ¬ cap ≤ b.toSpillBuffer.held.length + left from h)]

/-- The two loops that write, round by round. -/
theorem toSpillBuffer_round (b : BlockBuffer α cap) (left : Nat) (xs : List α) :
    ((b.makeRoom left).copy xs).map toSpillBuffer = (b.toSpillBuffer.makeRoom left).copy xs := by
  rw [toSpillBuffer_copy, toSpillBuffer_makeRoom]

theorem toSpillBuffer_writeLoop (chunk fuel : Nat) (b : BlockBuffer α cap) (xs : List α) :
    (writeLoop chunk fuel b xs).map toSpillBuffer
      = SpillBuffer.writeLoop chunk fuel b.toSpillBuffer xs := by
  induction fuel generalizing b xs with
  | zero => cases xs <;> rfl
  | succ fuel ih =>
    cases xs with
    | nil => rfl
    | cons x xs =>
      rw [writeLoop, SpillBuffer.writeLoop, ← toSpillBuffer_round, Option.map_bind,
        Option.bind_map]
      exact congrArg _ (funext fun b' => ih b' _)

theorem toSpillBuffer_write (chunk : Nat) (b : BlockBuffer α cap) (xs : List α) :
    (b.write chunk xs).map toSpillBuffer = b.toSpillBuffer.write chunk xs :=
  toSpillBuffer_writeLoop chunk xs.length b xs

/-! ## The number of blocks -/

/-- The number of items written so far. -/
def written (b : BlockBuffer α cap) : Nat := b.toSpillBuffer.contents.length

/-- Apart from `extra` blocks, at most two blocks for every `chunk` items written, with the items
    held as the potential. -/
def Thrifty (chunk extra : Nat) (b : BlockBuffer α cap) : Prop :=
  chunk * b.blocks.length + b.held.length ≤ 2 * b.written + chunk * extra

theorem thrifty_empty (chunk extra : Nat) : (empty : BlockBuffer α cap).Thrifty chunk extra := by
  simp [Thrifty, empty, written, toSpillBuffer, SpillBuffer.contents]

/-- A block more that no write asked for. -/
theorem Thrifty.spill {chunk extra : Nat} {b : BlockBuffer α cap} (h : b.Thrifty chunk extra) :
    b.spill.Thrifty chunk (extra + 1) := by
  have hwritten : b.spill.written = b.written := by
    rw [written, written, toSpillBuffer_spill, SpillBuffer.contents_spill]
  unfold Thrifty at h ⊢
  rw [hwritten]
  simp only [BlockBuffer.spill, List.length_append, List.length_singleton, List.length_nil,
    Nat.mul_succ]
  omega

/-- One round: all that is left is copied, or a whole chunk. -/
theorem Thrifty.round {chunk extra left : Nat} (hchunk : chunk ≤ cap) {b b' : BlockBuffer α cap}
    {xs : List α} (h : b.Thrifty chunk extra) (hxs : xs.length = min left chunk)
    (hcopy : (b.makeRoom left).copy xs = some b') : b'.Thrifty chunk extra := by
  have hwritten : b'.written = b.written + xs.length := by
    have hround := toSpillBuffer_round b left xs
    rw [hcopy, Option.map_some] at hround
    rw [written, SpillBuffer.contents_copy hround.symm, SpillBuffer.contents_makeRoom,
      List.length_append, written]
  unfold copy at hcopy
  split at hcopy
  · obtain rfl := Option.some.inj hcopy
    unfold Thrifty at h ⊢
    rw [hwritten]
    unfold makeRoom
    split
    · next hfull =>
      simp only [BlockBuffer.spill, List.length_append, List.length_singleton, List.length_nil,
        Nat.mul_succ]
      omega
    · simp only [List.length_append]
      omega
  · exact absurd hcopy (by simp)

theorem Thrifty.writeLoop {chunk extra fuel : Nat} (hchunk : chunk ≤ cap)
    {b b' : BlockBuffer α cap} {xs : List α} (h : b.Thrifty chunk extra)
    (hwrite : BlockBuffer.writeLoop chunk fuel b xs = some b') : b'.Thrifty chunk extra := by
  induction fuel generalizing b xs with
  | zero =>
    cases xs with
    | nil => exact Option.some.inj hwrite ▸ h
    | cons x xs => exact absurd hwrite (by simp [BlockBuffer.writeLoop])
  | succ fuel ih =>
    cases xs with
    | nil => exact Option.some.inj hwrite ▸ h
    | cons x xs =>
      simp only [BlockBuffer.writeLoop, Option.bind_eq_some_iff] at hwrite
      obtain ⟨b₁, hcopy, hrest⟩ := hwrite
      exact ih (h.round hchunk (by rw [List.length_take, Nat.min_comm]) hcopy) hrest

theorem Thrifty.write {chunk extra : Nat} (hchunk : chunk ≤ cap) {b b' : BlockBuffer α cap}
    {xs : List α} (h : b.Thrifty chunk extra) (hwrite : b.write chunk xs = some b') :
    b'.Thrifty chunk extra :=
  h.writeLoop hchunk hwrite

/-- Data that fits the array is written in one round: with a block before it if it does not fit
    behind what is held. -/
theorem exists_write_of_le (b : BlockBuffer α cap) {xs : List α} (hne : xs ≠ [])
    (hxs : xs.length ≤ cap) :
    ∃ b', b.write cap xs = some b' ∧ b'.written = b.written + xs.length ∧
      (cap ≤ b.held.length + xs.length → b'.held.length = xs.length ∧
        b'.blocks.length = b.blocks.length + 1) ∧
      (b.held.length + xs.length < cap → b'.held.length = b.held.length + xs.length ∧
        b'.blocks.length = b.blocks.length) := by
  obtain ⟨x, xs, rfl⟩ := List.exists_cons_of_ne_nil hne
  have hround : b.write cap (x :: xs) = (b.makeRoom (x :: xs).length).copy (x :: xs) := by
    have hdone : (fun b' : BlockBuffer α cap => writeLoop cap xs.length b' []) = some := by
      funext b'
      cases xs <;> rfl
    rw [write, List.length_cons, writeLoop, List.take_of_length_le hxs, List.drop_of_length_le hxs,
      hdone, Option.bind_fun_some, List.length_cons]
  have hroom : ((b.makeRoom (x :: xs).length).held ++ (x :: xs)).length ≤ cap := by
    unfold makeRoom
    split
    · exact hxs
    · rw [List.length_append]
      omega
  refine ⟨_, by rw [hround, copy, dif_pos hroom], ?_, ?_, ?_⟩
  · have hwritten := toSpillBuffer_write cap b (x :: xs)
    rw [hround, copy, dif_pos hroom, Option.map_some] at hwritten
    rw [written, SpillBuffer.contents_write hwritten.symm, List.length_append, written]
  · intro hfull
    simp only [makeRoom, if_pos hfull, spill, List.nil_append, List.length_append,
      List.length_singleton, and_self]
  · intro hfits
    simp only [makeRoom, if_neg (Nat.not_le.2 hfits), List.length_append, and_self]

end BlockBuffer
