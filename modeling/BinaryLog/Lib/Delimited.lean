import Mathlib.Data.List.Basic

set_option autoImplicit false

/-! # Self-delimiting items

A file of items one after another, where what counts as an item may depend on a state that the
items before it have left (the position in a second file, a table so far). If an item itself decides
where it ends, then a cut of the file consists of whole items exactly if it ends where an item does
(`Items.cut_iff`). -/

namespace Delimited

variable {α σ β : Type}

/-- Items one after another: each is an item in the state the one before it has left. -/
inductive Items (Item : σ → List α → σ → Prop) : σ → List (List α) → Prop
  | nil (s : σ) : Items Item s []
  | cons {s s' : σ} {xs : List α} {xss : List (List α)} (head : Item s xs s')
      (tail : Items Item s' xss) : Items Item s (xs :: xss)

/-- An item decides by itself where it ends and which state it leaves. -/
def SelfDelimiting (Item : σ → List α → σ → Prop) : Prop :=
  ∀ s xs s₁ ys s₂ rest rest', Item s xs s₁ → Item s ys s₂ → xs ++ rest = ys ++ rest' →
    xs = ys ∧ s₁ = s₂

/-- A reader that takes just the item off the front of the file shows where it ends. -/
theorem selfDelimiting_of_reader {Item : σ → List α → σ → Prop}
    (read : σ → List α → Option (β × List α × σ))
    (h : ∀ s xs s' rest, Item s xs s' → ∃ b, read s (xs ++ rest) = some (b, rest, s')) :
    SelfDelimiting Item := by
  intro s xs s₁ ys s₂ rest rest' hxs hys heq
  obtain ⟨b, hb⟩ := h s xs s₁ rest hxs
  obtain ⟨b', hb'⟩ := h s ys s₂ rest' hys
  rw [heq, hb', Option.some.injEq, Prod.mk.injEq, Prod.mk.injEq] at hb
  obtain ⟨-, rfl, rfl⟩ := hb
  exact ⟨List.append_cancel_right heq, rfl⟩

section Items

variable {Item : σ → List α → σ → Prop}

/-- Without a state, the items are just those of the list. -/
theorem items_of_forall {P : List α → Prop} {xss : List (List α)} (h : ∀ xs ∈ xss, P xs) :
    Items (fun (_ : Unit) xs _ => P xs) () xss := by
  induction xss with
  | nil => exact .nil ()
  | cons xs xss ih =>
    exact .cons (h xs List.mem_cons_self)
      (ih (fun ys hys => h ys (List.mem_cons_of_mem _ hys)))

theorem Items.forall_mem {P : List α → Prop} {u : Unit} {xss : List (List α)}
    (h : Items (fun (_ : Unit) xs _ => P xs) u xss) : ∀ xs ∈ xss, P xs := by
  induction h with
  | nil => simp
  | cons head tail ih =>
    intro ys hys
    rcases List.mem_cons.1 hys with rfl | hys
    · exact head
    · exact ih ys hys

theorem Items.take {s : σ} {xss : List (List α)} (h : Items Item s xss) (k : Nat) :
    Items Item s (xss.take k) := by
  induction h generalizing k with
  | nil s =>
    rw [List.take_nil]
    exact .nil s
  | cons head tail ih =>
    cases k with
    | zero => exact .nil _
    | succ k => exact .cons head (ih k)

/-- Items that make up a cut of the file are the first items of the file. -/
theorem Items.isPrefix (hdelim : SelfDelimiting Item) (hne : ∀ s xs s', Item s xs s' → xs ≠ [])
    {s : σ} {xss yss : List (List α)} (hxss : Items Item s xss) (hyss : Items Item s yss)
    (h : yss.flatten <+: xss.flatten) : yss <+: xss := by
  induction hyss generalizing xss with
  | nil => exact List.nil_prefix
  | cons head tail ih =>
    rename_i s s' ys yss
    obtain ⟨rest, hrest⟩ := h
    rw [List.flatten_cons, List.append_assoc] at hrest
    cases hxss with
    | nil => exact absurd (List.append_eq_nil_iff.1 hrest).1 (hne s ys s' head)
    | cons head' tail' =>
      rename_i s'' xs xss
      rw [List.flatten_cons] at hrest
      obtain ⟨rfl, rfl⟩ := hdelim _ _ _ _ _ _ _ head head' hrest
      have htail : yss.flatten <+: xss.flatten := ⟨rest, List.append_cancel_left hrest⟩
      exact List.cons_prefix_cons.2 ⟨rfl, ih tail' htail⟩

/-- A cut consists of whole items exactly if it ends where an item ends. -/
theorem Items.cut_iff (hdelim : SelfDelimiting Item) (hne : ∀ s xs s', Item s xs s' → xs ≠ [])
    {s : σ} {xss : List (List α)} (h : Items Item s xss) {cut : List α}
    (hcut : cut <+: xss.flatten) :
    (∃ yss, Items Item s yss ∧ cut = yss.flatten) ↔ ∃ k, cut = (xss.take k).flatten := by
  constructor
  · rintro ⟨yss, hyss, rfl⟩
    have hprefix := h.isPrefix hdelim hne hyss hcut
    exact ⟨yss.length, by rw [← List.prefix_iff_eq_take.1 hprefix]⟩
  · rintro ⟨k, rfl⟩
    exact ⟨xss.take k, h.take k, rfl⟩

end Items

/-! ## Cuts at any place -/

/-- How many of the items are whole in the first `k` elements of the file. -/
def wholeItems : Nat → List (List α) → Nat
  | _, [] => 0
  | k, xs :: xss => if xs.length ≤ k then wholeItems (k - xs.length) xss + 1 else 0

theorem wholeItems_append_of_le {k : Nat} {xss : List (List α)} (h : xss.flatten.length ≤ k)
    (yss : List (List α)) :
    wholeItems k (xss ++ yss) = xss.length + wholeItems (k - xss.flatten.length) yss := by
  induction xss generalizing k with
  | nil => simp
  | cons xs xss ih =>
    rw [List.flatten_cons, List.length_append] at h
    rw [List.cons_append, wholeItems, if_pos (by omega), ih (by omega), List.flatten_cons,
      List.length_append, List.length_cons, Nat.sub_sub]
    omega

theorem wholeItems_append_of_lt {k : Nat} {xss : List (List α)} (h : k < xss.flatten.length)
    (yss : List (List α)) : wholeItems k (xss ++ yss) = wholeItems k xss := by
  induction xss generalizing k with
  | nil => exact absurd h (by simp)
  | cons xs xss ih =>
    rw [List.flatten_cons, List.length_append] at h
    rw [List.cons_append, wholeItems, wholeItems]
    split
    · rw [ih (by omega)]
    · rfl

theorem wholeItems_le_length (k : Nat) (xss : List (List α)) : wholeItems k xss ≤ xss.length := by
  induction xss generalizing k with
  | nil => exact Nat.le_refl 0
  | cons xs xss ih =>
    rw [wholeItems]
    split
    · exact Nat.succ_le_succ (ih _)
    · exact Nat.zero_le _

/-- It is the largest number of items whose elements are all there. -/
theorem le_wholeItems_iff {j k : Nat} {xss : List (List α)} (hj : j ≤ xss.length) :
    j ≤ wholeItems k xss ↔ (xss.take j).flatten.length ≤ k := by
  induction xss generalizing j k with
  | nil =>
    obtain rfl : j = 0 := by simpa using hj
    simp
  | cons xs xss ih =>
    cases j with
    | zero => simp
    | succ j =>
      rw [List.take_succ_cons, List.flatten_cons, List.length_append, wholeItems]
      split
      · next hle =>
        rw [Nat.succ_le_succ_iff, ih (by simpa using hj)]
        omega
      · omega

end Delimited
