import Mathlib.Data.List.Basic

set_option autoImplicit false

/-! # A bounded buffer in front of a sink

`SpillBuffer α cap` is an array of `cap` cells, of which a prefix is in use, in front of an
append-only sink. Writing spills the used prefix to the sink when the new data would fill the array,
then copies at most `chunk` items and goes on with the rest. A copy past the array is `none`, and so
is a loop that still has data after as many rounds as there were items: a round with `0 < chunk`
copies something, so only a loop that never ends is cut off.

The point of the module: whatever was spilled and whatever is still held, their concatenation
(`contents`) is everything ever written. -/

universe u

/-- The sink's items, the used prefix of the array, and the bound the array gives. -/
structure SpillBuffer (α : Type u) (cap : Nat) where
  spilled : List α
  held : List α
  held_le : held.length ≤ cap
  deriving DecidableEq

namespace SpillBuffer

variable {α : Type u} {cap : Nat}

/-- An array with nothing in it, in front of an empty sink. -/
def empty : SpillBuffer α cap := ⟨[], [], Nat.zero_le cap⟩

/-- Everything written so far. -/
def contents (b : SpillBuffer α cap) : List α := b.spilled ++ b.held

/-- Hand the used prefix to the sink. -/
def spill (b : SpillBuffer α cap) : SpillBuffer α cap :=
  ⟨b.spilled ++ b.held, [], Nat.zero_le cap⟩

/-- Copy `xs` behind the used prefix; `none` if it does not fit the array. -/
def copy (b : SpillBuffer α cap) (xs : List α) : Option (SpillBuffer α cap) :=
  if h : (b.held ++ xs).length ≤ cap then some ⟨b.spilled, b.held ++ xs, h⟩ else none

/-- The spill test at the head of each round, with `left` items still to be written. -/
def makeRoom (b : SpillBuffer α cap) (left : Nat) : SpillBuffer α cap :=
  if cap ≤ b.held.length + left then b.spill else b

/-- The chunked write loop, cut off after `fuel` rounds. -/
def writeLoop (chunk : Nat) : Nat → SpillBuffer α cap → List α → Option (SpillBuffer α cap)
  | _, b, [] => some b
  | 0, _, _ :: _ => none
  | fuel + 1, b, x :: xs =>
      ((b.makeRoom (x :: xs).length).copy ((x :: xs).take chunk)).bind
        (fun b' => writeLoop chunk fuel b' ((x :: xs).drop chunk))

/-- Write `xs`, at most `chunk` items a round. -/
def write (chunk : Nat) (b : SpillBuffer α cap) (xs : List α) : Option (SpillBuffer α cap) :=
  writeLoop chunk xs.length b xs

/-! ## Rounds -/

theorem copy_eq_some {b b' : SpillBuffer α cap} {xs : List α} (h : b.copy xs = some b') :
    b'.spilled = b.spilled ∧ b'.held = b.held ++ xs := by
  simp only [copy] at h
  split at h
  · obtain rfl := Option.some.inj h
    exact ⟨rfl, rfl⟩
  · exact absurd h (by simp)

/-- Whatever holds of an empty write and is passed on by one more round in front holds of every
    write that returns. -/
theorem writeLoop_rounds {chunk : Nat} {R : SpillBuffer α cap → List α → SpillBuffer α cap → Prop}
    (hdone : ∀ b, R b [] b)
    (hround : ∀ b b₁ b' xs, xs ≠ [] → (b.makeRoom xs.length).copy (xs.take chunk) = some b₁ →
      R b₁ (xs.drop chunk) b' → R b xs b')
    {fuel : Nat} {b b' : SpillBuffer α cap} {xs : List α}
    (h : writeLoop chunk fuel b xs = some b') : R b xs b' := by
  induction fuel generalizing b xs with
  | zero =>
    cases xs with
    | nil => exact Option.some.inj h ▸ hdone b
    | cons x xs => exact absurd h (by simp [writeLoop])
  | succ fuel ih =>
    cases xs with
    | nil => exact Option.some.inj h ▸ hdone b
    | cons x xs =>
      simp only [writeLoop, Option.bind_eq_some_iff] at h
      obtain ⟨b₁, hcopy, hrest⟩ := h
      exact hround b b₁ b' (x :: xs) (by simp) hcopy (ih hrest)

/-! ## Contents -/

@[simp] theorem contents_spill (b : SpillBuffer α cap) : b.spill.contents = b.contents := by
  simp [contents, spill]

@[simp] theorem contents_makeRoom (b : SpillBuffer α cap) (left : Nat) :
    (b.makeRoom left).contents = b.contents := by
  unfold makeRoom
  split
  · exact contents_spill b
  · rfl

theorem contents_copy {b b' : SpillBuffer α cap} {xs : List α} (h : b.copy xs = some b') :
    b'.contents = b.contents ++ xs := by
  obtain ⟨hspilled, hheld⟩ := copy_eq_some h
  rw [contents, contents, hspilled, hheld, List.append_assoc]

/-- A write that returns has appended exactly its data. -/
theorem contents_write {chunk : Nat} {b b' : SpillBuffer α cap} {xs : List α}
    (h : b.write chunk xs = some b') : b'.contents = b.contents ++ xs := by
  refine writeLoop_rounds (R := fun b xs b' => b'.contents = b.contents ++ xs) (by simp) ?_ h
  intro b b₁ b' xs _ hcopy hrest
  rw [hrest, contents_copy hcopy, contents_makeRoom, List.append_assoc, List.take_append_drop]

/-! ## The sink only grows -/

theorem spilled_prefix_makeRoom (b : SpillBuffer α cap) (left : Nat) :
    b.spilled <+: (b.makeRoom left).spilled := by
  unfold makeRoom
  split
  · exact List.prefix_append _ _
  · exact List.prefix_rfl

theorem spilled_prefix_write {chunk : Nat} {b b' : SpillBuffer α cap} {xs : List α}
    (h : b.write chunk xs = some b') : b.spilled <+: b'.spilled := by
  refine writeLoop_rounds (R := fun b _ b' => b.spilled <+: b'.spilled)
    (fun _ => List.prefix_rfl) ?_ h
  intro b b₁ b' xs _ hcopy hrest
  rw [(copy_eq_some hcopy).1] at hrest
  exact (spilled_prefix_makeRoom b xs.length).trans hrest

/-! ## What stays in the array -/

/-- The array is never full when a chunk is smaller than the array. -/
theorem held_lt_of_copy {b b' : SpillBuffer α cap} {left : Nat} {xs : List α}
    (hleft : xs.length ≤ left) (hcap : xs.length < cap)
    (h : (b.makeRoom left).copy xs = some b') : b'.held.length < cap := by
  rw [(copy_eq_some h).2]
  unfold makeRoom
  split
  · simpa [spill] using hcap
  · rw [List.length_append]
    omega

theorem held_lt_of_write {chunk : Nat} (hchunk : chunk < cap) {b b' : SpillBuffer α cap}
    {xs : List α} (hb : b.held.length < cap) (h : b.write chunk xs = some b') :
    b'.held.length < cap := by
  refine writeLoop_rounds (R := fun b _ b' => b.held.length < cap → b'.held.length < cap)
    (fun _ hb => hb) ?_ h hb
  intro b b₁ b' xs _ hcopy hrest _
  refine hrest (held_lt_of_copy (List.length_take_le' _ _) ?_ hcopy)
  rw [List.length_take]
  omega

/-! ## Every write returns -/

/-- After the spill test a chunk fits: either the array is empty or all that is left fits. -/
theorem copy_makeRoom_isSome (b : SpillBuffer α cap) (left : Nat) (xs : List α)
    (hleft : xs.length ≤ left) (hcap : xs.length ≤ cap) :
    ∃ b', (b.makeRoom left).copy xs = some b' := by
  have hfits : ((b.makeRoom left).held ++ xs).length ≤ cap := by
    unfold makeRoom
    split
    · simpa [spill] using hcap
    · rw [List.length_append]
      omega
  exact ⟨_, by rw [copy, dif_pos hfits]⟩

theorem writeLoop_isSome {chunk : Nat} (hpos : 0 < chunk) (hchunk : chunk ≤ cap) {fuel : Nat}
    (b : SpillBuffer α cap) (xs : List α) (hfuel : xs.length ≤ fuel) :
    ∃ b', writeLoop chunk fuel b xs = some b' := by
  induction fuel generalizing b xs with
  | zero =>
    obtain rfl := List.eq_nil_of_length_eq_zero (Nat.le_zero.1 hfuel)
    exact ⟨b, rfl⟩
  | succ fuel ih =>
    cases xs with
    | nil => exact ⟨b, rfl⟩
    | cons x xs =>
      obtain ⟨b₁, hcopy⟩ := copy_makeRoom_isSome b (x :: xs).length
        ((x :: xs).take chunk) (List.length_take_le' _ _) (by rw [List.length_take]; omega)
      have hless : ((x :: xs).drop chunk).length ≤ fuel := by
        simp only [List.length_drop, List.length_cons] at hfuel ⊢
        omega
      obtain ⟨b', hrest⟩ := ih b₁ _ hless
      exact ⟨b', by rw [writeLoop, hcopy, Option.bind_some, hrest]⟩

/-- With a positive chunk that the array can hold, a write never faults and always ends. -/
theorem write_isSome (chunk : Nat) (hpos : 0 < chunk) (hchunk : chunk ≤ cap)
    (b : SpillBuffer α cap) (xs : List α) : ∃ b', b.write chunk xs = some b' :=
  writeLoop_isSome hpos hchunk b xs (Nat.le_refl _)

/-! ## Inside a write -/

/-- `Visits chunk b xs b' rest`: writing `xs` from `b` on, the loop comes to its head in the state
    `b'` with `rest` still to be written. -/
inductive Visits (chunk : Nat) : SpillBuffer α cap → List α → SpillBuffer α cap → List α → Prop
  | here (b : SpillBuffer α cap) (xs : List α) : Visits chunk b xs b xs
  | round {b b₁ b' : SpillBuffer α cap} {xs rest : List α} : xs ≠ [] →
      (b.makeRoom xs.length).copy (xs.take chunk) = some b₁ →
      Visits chunk b₁ (xs.drop chunk) b' rest → Visits chunk b xs b' rest

/-- A write returns the state in which the loop comes to its head with nothing left. -/
theorem visits_of_write {chunk : Nat} {b b' : SpillBuffer α cap} {xs : List α}
    (h : b.write chunk xs = some b') : Visits chunk b xs b' [] :=
  writeLoop_rounds (R := fun b xs b' => Visits chunk b xs b' []) (fun b => .here b [])
    (fun _ _ _ _ hne hcopy hrest => .round hne hcopy hrest) h

/-- What has been written and what is left are the data, at every round. -/
theorem Visits.contents_append {chunk : Nat} {b b' : SpillBuffer α cap} {xs rest : List α}
    (h : Visits chunk b xs b' rest) : b'.contents ++ rest = b.contents ++ xs := by
  induction h with
  | here b xs => rfl
  | round hne hcopy hrest ih =>
    rw [ih, contents_copy hcopy, contents_makeRoom, List.append_assoc, List.take_append_drop]

theorem Visits.held_lt {chunk : Nat} (hchunk : chunk < cap) {b b' : SpillBuffer α cap}
    {xs rest : List α} (h : Visits chunk b xs b' rest) (hb : b.held.length < cap) :
    b'.held.length < cap := by
  induction h with
  | here b xs => exact hb
  | round hne hcopy hrest ih =>
    refine ih (held_lt_of_copy (List.length_take_le' _ _) ?_ hcopy)
    rw [List.length_take]
    omega

/-- Every round copies at least one item, and the copy stays inside the array. -/
theorem exists_round {chunk : Nat} (hpos : 0 < chunk) (hchunk : chunk ≤ cap)
    (b : SpillBuffer α cap) {xs : List α} (hne : xs ≠ []) :
    xs.take chunk ≠ [] ∧ ∃ b', (b.makeRoom xs.length).copy (xs.take chunk) = some b' := by
  refine ⟨?_, copy_makeRoom_isSome b xs.length _ (List.length_take_le' _ _)
    (by rw [List.length_take]; omega)⟩
  rw [ne_eq, List.take_eq_nil_iff, not_or]
  exact ⟨by omega, hne⟩

/-- Writing `xs` to `b` goes through: the write returns, and at the head of every round the items
    written and the items left are the data, at most `bound` of them are held, handing them over
    changes nothing, and the next copy takes at least one item and stays inside the array. -/
structure WritesThrough (chunk bound : Nat) (b : SpillBuffer α cap) (xs : List α) : Prop where
  returns : ∃ b', b.write chunk xs = some b' ∧ Visits chunk b xs b' []
  rounds : ∀ b' rest, Visits chunk b xs b' rest →
    b'.contents ++ rest = b.contents ++ xs ∧ b'.held.length ≤ bound
  copies : ∀ b' rest, Visits chunk b xs b' rest → rest ≠ [] →
    (b'.makeRoom rest.length).contents = b'.contents ∧ rest.take chunk ≠ [] ∧
      ∃ b'', (b'.makeRoom rest.length).copy (rest.take chunk) = some b''

theorem writesThrough {chunk : Nat} (hpos : 0 < chunk) (hchunk : chunk ≤ cap)
    (b : SpillBuffer α cap) (xs : List α) : WritesThrough chunk cap b xs where
  returns := by
    obtain ⟨b', hb'⟩ := b.write_isSome chunk hpos hchunk xs
    exact ⟨b', hb', visits_of_write hb'⟩
  rounds := fun b' _ h => ⟨h.contents_append, b'.held_le⟩
  copies := fun b' rest _ hne =>
    ⟨b'.contents_makeRoom rest.length, b'.exists_round hpos hchunk hne⟩

/-- With a chunk smaller than the array a cell stays free. -/
theorem writesThrough_of_lt {chunk : Nat} (hpos : 0 < chunk) (hchunk : chunk < cap)
    {b : SpillBuffer α cap} (hb : b.held.length < cap) (xs : List α) :
    WritesThrough chunk (cap - 1) b xs :=
  { writesThrough hpos (Nat.le_of_lt hchunk) b xs with
    rounds := fun _ _ h => ⟨h.contents_append, Nat.le_sub_one_of_lt (h.held_lt hchunk hb)⟩ }

end SpillBuffer
