import Mathlib.Data.List.Dedup
import Mathlib.Data.List.Nodup
import Mathlib.Data.List.Perm.Basic

set_option autoImplicit false

/-! # First occurrences

`firsts key seen l` are the items of `l` whose key occurs for the first time: neither in `seen` nor
earlier in `l`. Numbering keys in the order of their first occurrence is looking them up in
`keys key seen l`, the keys seen in the end; a number once given stays (`idxOf_keys`). -/

universe u v

namespace Firsts

variable {α : Type u} {κ : Type v} [DecidableEq κ] (key : α → κ)

/-- The items with a new key. -/
def firsts : List κ → List α → List α
  | _, [] => []
  | seen, a :: l => if key a ∈ seen then firsts seen l else a :: firsts (seen ++ [key a]) l

/-- All keys in the order they were seen. -/
def keys (seen : List κ) (l : List α) : List κ := seen ++ (firsts key seen l).map key

@[simp] theorem keys_nil (seen : List κ) : keys key seen [] = seen := List.append_nil seen

theorem firsts_of_mem {seen : List κ} {a : α} (h : key a ∈ seen) (l : List α) :
    firsts key seen (a :: l) = firsts key seen l := by
  rw [firsts, if_pos h]

theorem firsts_of_notMem {seen : List κ} {a : α} (h : key a ∉ seen) (l : List α) :
    firsts key seen (a :: l) = a :: firsts key (seen ++ [key a]) l := by
  rw [firsts, if_neg h]

theorem keys_of_mem {seen : List κ} {a : α} (h : key a ∈ seen) (l : List α) :
    keys key seen (a :: l) = keys key seen l := by
  rw [keys, firsts_of_mem key h, keys]

theorem keys_of_notMem {seen : List κ} {a : α} (h : key a ∉ seen) (l : List α) :
    keys key seen (a :: l) = keys key (seen ++ [key a]) l := by
  rw [keys, firsts_of_notMem key h, keys, List.map_cons, List.append_assoc, List.singleton_append]

theorem firsts_append (seen : List κ) (l l' : List α) :
    firsts key seen (l ++ l') = firsts key seen l ++ firsts key (keys key seen l) l' := by
  induction l generalizing seen with
  | nil => simp [firsts, keys]
  | cons a l ih =>
    by_cases h : key a ∈ seen
    · rw [List.cons_append, firsts_of_mem key h, firsts_of_mem key h, keys_of_mem key h, ih]
    · rw [List.cons_append, firsts_of_notMem key h, firsts_of_notMem key h, keys_of_notMem key h,
        ih,
        List.cons_append]

theorem keys_append (seen : List κ) (l l' : List α) :
    keys key seen (l ++ l') = keys key (keys key seen l) l' := by
  rw [keys, firsts_append, List.map_append, ← List.append_assoc]
  rfl

theorem firsts_sublist (seen : List κ) (l : List α) : (firsts key seen l).Sublist l := by
  induction l generalizing seen with
  | nil => exact List.Sublist.refl []
  | cons a l ih =>
    by_cases h : key a ∈ seen
    · rw [firsts_of_mem key h]
      exact (ih seen).cons a
    · rw [firsts_of_notMem key h]
      exact (ih (seen ++ [key a])).cons_cons a

theorem mem_keys (seen : List κ) {l : List α} {a : α} (h : a ∈ l) : key a ∈ keys key seen l := by
  induction l generalizing seen with
  | nil => exact absurd h List.not_mem_nil
  | cons b l ih =>
    by_cases hb : key b ∈ seen
    · rw [keys_of_mem key hb]
      rcases List.mem_cons.1 h with rfl | h
      · exact List.mem_append_left _ hb
      · exact ih seen h
    · rw [keys_of_notMem key hb]
      rcases List.mem_cons.1 h with rfl | h
      · exact List.mem_append_left _ (List.mem_append_right _ (List.mem_singleton.2 rfl))
      · exact ih (seen ++ [key b]) h

theorem nodup_keys {seen : List κ} (h : seen.Nodup) (l : List α) : (keys key seen l).Nodup := by
  induction l generalizing seen with
  | nil => simpa [keys, firsts] using h
  | cons a l ih =>
    by_cases ha : key a ∈ seen
    · rw [keys_of_mem key ha]
      exact ih h
    · rw [keys_of_notMem key ha]
      exact ih (List.nodup_append.2 ⟨h, List.nodup_singleton _, by
        rintro k hk _ hka rfl
        exact ha (List.mem_singleton.1 hka ▸ hk)⟩)

theorem length_le_keys (seen : List κ) (l : List α) : seen.length ≤ (keys key seen l).length :=
  (List.prefix_append seen _).length_le

/-- A key that has a number keeps it. -/
theorem idxOf_keys {seen : List κ} {k : κ} (h : k ∈ seen) (l : List α) :
    (keys key seen l).idxOf k = seen.idxOf k :=
  List.idxOf_append_of_mem h

/-- There are as many first occurrences as distinct keys. -/
theorem length_firsts (l : List α) : (firsts key [] l).length = (l.map key).dedup.length := by
  have hnodup : ((firsts key [] l).map key).Nodup := nodup_keys key List.nodup_nil l
  have hperm : ((firsts key [] l).map key).Perm (l.map key).dedup := by
    refine (List.perm_ext_iff_of_nodup hnodup (List.nodup_dedup _)).2 (fun k => ?_)
    rw [List.mem_dedup]
    refine ⟨fun hk => ((firsts_sublist key [] l).map key).subset hk, fun hk => ?_⟩
    obtain ⟨a, ha, rfl⟩ := List.mem_map.1 hk
    exact mem_keys key [] ha
  rw [← hperm.length_eq, List.length_map]

/-- The number of a key is the place of its first occurrence. -/
theorem getElem?_idxOf_keys {l : List α} {a : α} (h : a ∈ l) :
    ∃ b ∈ l, (firsts key [] l)[(keys key [] l).idxOf (key a)]? = some b ∧ key b = key a := by
  have hmem : key a ∈ (firsts key [] l).map key := mem_keys key [] h
  obtain ⟨i, hi⟩ : ∃ i, ((firsts key [] l).map key).idxOf (key a) = i := ⟨_, rfl⟩
  have hlt : i < (firsts key [] l).length := by
    rw [← hi]
    simpa using List.idxOf_lt_length_iff.2 hmem
  have hkey := List.getElem_idxOf (List.idxOf_lt_length_iff.2 hmem)
  refine ⟨(firsts key [] l)[i], (firsts_sublist key [] l).subset (List.getElem_mem hlt), ?_, ?_⟩
  · rw [keys, List.nil_append, hi, List.getElem?_eq_getElem hlt]
  · simpa [hi] using hkey

end Firsts
