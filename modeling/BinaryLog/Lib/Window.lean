import Mathlib.Data.List.Basic

set_option autoImplicit false

/-! # A sliding window of whole blocks

A sequence of blocks grows at its end, block by block and inside the last block item by item; a
window keeps as many of the last blocks as fit below a capacity. To make room for `size` more items,
`trim` drops whole blocks from the front. `IsWindow` is the invariant of this process: what is kept
is below the capacity, and with the last block dropped it would not be. It survives opening a block
(`IsWindow.push`) and writing into the last one (`IsWindow.grow`), and it makes the window the
longest suffix of whole blocks below the capacity (`IsWindow.length_le`). -/

universe u

namespace Window

variable {α : Type u} {cap : Nat}

/-- Drop blocks from the front until `size` more items stay below the capacity. -/
def trim (cap size : Nat) : List (List α) → List (List α)
  | [] => []
  | b :: bs => if cap ≤ (b :: bs).flatten.length + size then trim cap size bs else b :: bs

/-- `kept` are the last blocks, as many as stay below the capacity. -/
structure IsWindow (cap : Nat) (blocks kept : List (List α)) : Prop where
  suffix : ∃ dropped, blocks = dropped ++ kept ∧
    ∀ b ∈ dropped.getLast?, cap ≤ b.length + kept.flatten.length
  below : kept ≠ [] → kept.flatten.length < cap
  ne_nil : blocks ≠ [] → kept ≠ []

theorem IsWindow.nil : IsWindow cap ([] : List (List α)) [] :=
  ⟨⟨[], rfl, by simp⟩, fun h => absurd rfl h, fun h => absurd rfl h⟩

/-- A new block starts empty. -/
theorem IsWindow.push {blocks kept : List (List α)} (h : IsWindow cap blocks kept)
    (hcap : 0 < cap) : IsWindow cap (blocks ++ [[]]) (kept ++ [[]]) := by
  obtain ⟨dropped, rfl, hmax⟩ := h.suffix
  refine ⟨⟨dropped, by rw [List.append_assoc], by simpa using hmax⟩, fun _ => ?_, by simp⟩
  rcases eq_or_ne kept [] with rfl | hne
  · simpa using hcap
  · simpa using h.below hne

/-- Whatever is longer than the window is not below the capacity. -/
theorem IsWindow.length_le {blocks kept tail : List (List α)} (h : IsWindow cap blocks kept)
    (htail : tail <:+ blocks) (hbelow : tail.flatten.length < cap) :
    tail.flatten.length ≤ kept.flatten.length := by
  obtain ⟨dropped, rfl, hmax⟩ := h.suffix
  obtain ⟨front, hfront⟩ := htail
  rcases List.append_eq_append_iff.1 hfront with ⟨extra, rfl, rfl⟩ | ⟨extra, rfl, rfl⟩
  · -- the tail contains all that is kept and the last dropped blocks `extra`
    rcases List.eq_nil_or_concat extra with rfl | ⟨init, b, rfl⟩
    · simp
    · have hb := hmax b (by simp)
      simp only [List.concat_eq_append, List.flatten_append, List.length_append,
        List.flatten_cons, List.flatten_nil, List.length_nil] at hbelow
      omega
  · simp

/-- The window is what trimming the whole sequence leaves. -/
theorem IsWindow.trim_eq {blocks kept : List (List α)} (h : IsWindow cap blocks kept) :
    trim cap 0 blocks = kept := by
  obtain ⟨dropped, rfl, hmax⟩ := h.suffix
  have hbelow := h.below
  clear h
  induction dropped with
  | nil =>
    cases kept with
    | nil => rfl
    | cons b kept =>
      have hlt := hbelow (by simp)
      rw [List.nil_append, trim, if_neg (by omega)]
  | cons b dropped ih =>
    have hrest : ∀ b' ∈ dropped.getLast?, cap ≤ b'.length + kept.flatten.length := by
      intro b' hb'
      exact hmax b' (by rw [List.getLast?_cons, Option.mem_def.1 hb']; rfl)
    have hfull : cap ≤ (b :: (dropped ++ kept)).flatten.length + 0 := by
      rcases List.eq_nil_or_concat' dropped with rfl | ⟨init, b', rfl⟩
      · have hb := hmax b (by simp)
        simpa using hb
      · have hb' := hrest b' (by simp)
        simp only [List.flatten_cons, List.flatten_append, List.length_append, List.flatten_nil,
          List.length_nil]
        omega
    rw [List.cons_append, trim, if_pos hfull]
    exact ih hrest

/-- What trimming drops, it has to drop; the last block is never dropped. -/
theorem exists_trim_concat (front : List (List α)) {last : List α} {size : Nat}
    (hlast : last.length + size < cap) :
    ∃ dropped front', front = dropped ++ front' ∧
      trim cap size (front ++ [last]) = front' ++ [last] ∧
      (front' ++ [last]).flatten.length + size < cap ∧
      ∀ b ∈ dropped.getLast?, cap ≤ b.length + (front' ++ [last]).flatten.length + size := by
  induction front with
  | nil =>
    refine ⟨[], [], rfl, ?_, by simpa using hlast, by simp⟩
    rw [List.nil_append, trim, if_neg (by simpa using hlast)]
  | cons b front ih =>
    rw [List.cons_append, trim]
    split
    · next hfull =>
      obtain ⟨dropped, front', rfl, htrim, hbelow, hmax⟩ := ih
      refine ⟨b :: dropped, front', rfl, htrim, hbelow, ?_⟩
      intro b' hb'
      cases dropped with
      | nil =>
        obtain rfl : b = b' := by simpa using hb'
        simp only [List.nil_append, List.flatten_cons, List.length_append] at hfull ⊢
        omega
      | cons d dropped =>
        rw [List.getLast?_cons_cons] at hb'
        exact hmax b' hb'
    · next hroom =>
      exact ⟨[], b :: front, rfl, rfl, by simpa using Nat.lt_of_not_le hroom, by simp⟩

/-- The last block is always kept. -/
theorem IsWindow.exists_concat {done kept : List (List α)} {last : List α}
    (h : IsWindow cap (done ++ [last]) kept) : ∃ front, kept = front ++ [last] := by
  obtain ⟨dropped, hsplit, -⟩ := h.suffix
  obtain ⟨front, last', rfl⟩ := (List.eq_nil_or_concat' kept).resolve_left (h.ne_nil (by simp))
  rw [← List.append_assoc] at hsplit
  obtain rfl : last = last' := by simpa using (List.append_inj' hsplit rfl).2
  exact ⟨front, rfl⟩

/-- Writing into the last block, after trimming for it. -/
theorem IsWindow.grow {done kept : List (List α)} {last input : List α}
    (h : IsWindow cap (done ++ [last]) kept) (hlast : last.length + input.length < cap) :
    ∃ front front', kept = front ++ [last] ∧ trim cap input.length kept = front' ++ [last] ∧
      IsWindow cap (done ++ [last ++ input]) (front' ++ [last ++ input]) := by
  obtain ⟨front, rfl⟩ := h.exists_concat
  obtain ⟨dropped, hsplit, hmax⟩ := h.suffix
  rw [← List.append_assoc] at hsplit
  obtain rfl := (List.append_inj' hsplit rfl).1
  obtain ⟨dropped', front', rfl, htrim, hbelow, hmax'⟩ := exists_trim_concat front hlast
  refine ⟨dropped' ++ front', front', rfl, htrim, ?_⟩
  simp only [List.flatten_append, List.flatten_cons, List.flatten_nil, List.append_nil,
    List.length_append] at hbelow hmax hmax'
  refine ⟨⟨dropped ++ dropped', by simp, ?_⟩, fun _ => ?_, by simp⟩
  · intro b hb
    simp only [List.flatten_append, List.flatten_cons, List.flatten_nil, List.append_nil,
      List.length_append]
    rcases List.eq_nil_or_concat' dropped' with rfl | ⟨init, b', rfl⟩
    · rw [List.append_nil] at hb
      have hb' := hmax b hb
      simp only [List.flatten_nil, List.length_nil] at hb'
      omega
    · have hb' := hmax' b (by simpa using hb)
      omega
  · simp only [List.flatten_append, List.flatten_cons, List.flatten_nil, List.append_nil,
      List.length_append]
    omega

/-! ## Offsets -/

/-- The offsets at which the blocks start, the first one at `base`. -/
def offsets : Nat → List (List α) → List Nat
  | _, [] => []
  | base, b :: bs => base :: offsets (base + b.length) bs

theorem offsets_append (base : Nat) (bs bs' : List (List α)) :
    offsets base (bs ++ bs') = offsets base bs ++ offsets (base + bs.flatten.length) bs' := by
  induction bs generalizing base with
  | nil => rfl
  | cons b bs ih => simp [offsets, ih, Nat.add_assoc]

end Window
