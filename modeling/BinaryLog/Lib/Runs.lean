import Mathlib.Algebra.Ring.Nat
import Mathlib.Data.List.SplitBy

set_option autoImplicit false

/-! # Cutting a sequence into runs of equal keys

`cut key [] es` cuts the items of `es` into runs of equal `key`. A mark in `es` asks for a cut
between its two neighbours and is granted only if the current run already has two items; without
marks the runs are the maximal ones (`map_cut_items`).

A run-length format that stores a `(key, length)` record only for runs of two or more items has to
tell from the next record alone whether a run is recorded. `Follows` says that this reading of the
records agrees with the runs; `follows_records` that it does for the runs' own records as soon as
the runs are `Unambiguous`. -/

universe u v

namespace Runs

variable {α : Type u} {κ : Type v}

/-- One item of the sequence, or a mark between two items. -/
inductive Event (α : Type u) where
  | item (a : α)
  | mark

/-- The items without the marks. -/
def items : List (Event α) → List α
  | [] => []
  | .item a :: es => a :: items es
  | .mark :: es => items es

/-- The same events with other items. -/
def Event.map {β : Type v} (f : α → β) : Event α → Event β
  | .item a => .item (f a)
  | .mark => .mark

theorem items_map {β : Type v} (f : α → β) (es : List (Event α)) :
    items (es.map (Event.map f)) = (items es).map f := by
  induction es with
  | nil => rfl
  | cons e es ih => cases e <;> simp [items, Event.map, ih]

theorem mem_items {a : α} {es : List (Event α)} : a ∈ items es ↔ .item a ∈ es := by
  induction es with
  | nil => simp [items]
  | cons e es ih => cases e <;> simp [items, ih]

@[simp] theorem items_map_item (l : List α) : items (l.map .item) = l := by
  induction l with
  | nil => rfl
  | cons a l ih => simp [items, ih]

theorem items_append (es fs : List (Event α)) : items (es ++ fs) = items es ++ items fs := by
  induction es with
  | nil => rfl
  | cons e es ih => cases e <;> simp [items, ih]

/-- All items of a run have one key. -/
def Homogeneous (key : α → κ) (run : List α) : Prop :=
  ∀ a ∈ run, ∀ b ∈ run, key a = key b

theorem Homogeneous.nil (key : α → κ) : Homogeneous key [] :=
  fun _ h => absurd h List.not_mem_nil

theorem Homogeneous.singleton (key : α → κ) (a : α) : Homogeneous key [a] := by
  intro b hb c hc
  rw [List.mem_singleton.1 hb, List.mem_singleton.1 hc]

theorem Homogeneous.concat {key : α → κ} {a c : α} {run : List α}
    (h : Homogeneous key (a :: run)) (hac : key a = key c) :
    Homogeneous key (a :: run ++ [c]) := by
  have hall : ∀ b ∈ a :: run ++ [c], key b = key a := by
    intro b hb
    rcases List.mem_append.1 hb with hb | hb
    · exact h b hb a List.mem_cons_self
    · rw [List.mem_singleton.1 hb, hac]
  exact fun b hb d hd => (hall b hb).trans (hall d hd).symm

section Cut

variable [DecidableEq κ] (key : α → κ)

/-- Cut the items of the events into runs, the current run being `run`. -/
def cut : List α → List (Event α) → List (List α)
  | [], [] => []
  | a :: run, [] => [a :: run]
  | run, .mark :: es => if 1 < run.length then run :: cut [] es else cut run es
  | [], .item c :: es => cut [c] es
  | a :: run, .item c :: es =>
      if key a = key c then cut (a :: run ++ [c]) es else (a :: run) :: cut [c] es

@[simp] theorem cut_nil_nil : cut key [] [] = [] := rfl

@[simp] theorem cut_cons_nil (a : α) (run : List α) : cut key (a :: run) [] = [a :: run] := rfl

theorem cut_mark (run : List α) (es : List (Event α)) :
    cut key run (.mark :: es)
      = if 1 < run.length then run :: cut key [] es else cut key run es := by
  cases run <;> rfl

@[simp] theorem cut_nil_item (c : α) (es : List (Event α)) :
    cut key [] (.item c :: es) = cut key [c] es := rfl

theorem cut_cons_item (a c : α) (run : List α) (es : List (Event α)) :
    cut key (a :: run) (.item c :: es)
      = if key a = key c then cut key (a :: run ++ [c]) es else (a :: run) :: cut key [c] es := rfl

theorem flatten_cut (run : List α) (es : List (Event α)) :
    (cut key run es).flatten = run ++ items es := by
  induction es generalizing run with
  | nil => cases run <;> simp [items]
  | cons e es ih =>
    cases e with
    | mark =>
      rw [cut_mark]
      split
      · simp [ih, items]
      · simp [ih, items]
    | item c =>
      cases run with
      | nil => simp [ih, items]
      | cons a run =>
        rw [cut_cons_item]
        split
        · simp [ih, items]
        · simp [ih, items]

/-- The first run extends the current one. -/
theorem exists_cut_cons (a : α) (run : List α) (es : List (Event α)) :
    ∃ p ps, cut key (a :: run) es = (a :: run ++ p) :: ps := by
  induction es generalizing run with
  | nil => exact ⟨[], [], by simp⟩
  | cons e es ih =>
    cases e with
    | mark =>
      rw [cut_mark]
      split
      · exact ⟨[], cut key [] es, by simp⟩
      · exact ih run
    | item c =>
      rw [cut_cons_item]
      split
      · obtain ⟨p, ps, hcut⟩ := ih (run ++ [c])
        exact ⟨c :: p, ps, by simpa using hcut⟩
      · exact ⟨[], cut key [c] es, by simp⟩

theorem nil_notMem_cut (run : List α) (es : List (Event α)) : [] ∉ cut key run es := by
  induction es generalizing run with
  | nil => cases run <;> simp
  | cons e es ih =>
    cases e with
    | mark =>
      rw [cut_mark]
      split
      · next hlong =>
        have hne : run ≠ [] := by rintro rfl; exact absurd hlong (by simp)
        simp [ih, hne.symm]
      · exact ih run
    | item c =>
      cases run with
      | nil => exact ih [c]
      | cons a run =>
        rw [cut_cons_item]
        split
        · exact ih _
        · simp [ih]

theorem homogeneous_of_mem_cut (run : List α) (hrun : Homogeneous key run)
    (es : List (Event α)) : ∀ p ∈ cut key run es, Homogeneous key p := by
  induction es generalizing run with
  | nil =>
    cases run with
    | nil => simp
    | cons a run => simpa using hrun
  | cons e es ih =>
    cases e with
    | mark =>
      rw [cut_mark]
      split
      · intro p hp
        rcases List.mem_cons.1 hp with rfl | hp
        · exact hrun
        · exact ih [] (Homogeneous.nil key) p hp
      · exact ih run hrun
    | item c =>
      cases run with
      | nil => exact ih [c] (Homogeneous.singleton key c)
      | cons a run =>
        rw [cut_cons_item]
        split
        · next hac => exact ih _ (hrun.concat hac)
        · intro p hp
          rcases List.mem_cons.1 hp with rfl | hp
          · exact hrun
          · exact ih [c] (Homogeneous.singleton key c) p hp

/-- The key of a run, if it has an item. -/
def keyOf (run : List α) : Option κ := run.head?.map key

/-- A run of one item ends because the key changes: a mark does not cut it. -/
theorem isChain_cut (run : List α) (es : List (Event α)) :
    (cut key run es).IsChain (fun p q => p.length = 1 → keyOf key p ≠ keyOf key q) := by
  induction es generalizing run with
  | nil => cases run <;> simp
  | cons e es ih =>
    cases e with
    | mark =>
      rw [cut_mark]
      split
      · next hlong =>
        refine List.IsChain.cons (ih []) ?_
        intro q _ hone
        omega
      · exact ih run
    | item c =>
      cases run with
      | nil => exact ih [c]
      | cons a run =>
        rw [cut_cons_item]
        split
        · exact ih _
        · next hac =>
          obtain ⟨p, ps, hcut⟩ := exists_cut_cons key c [] es
          refine List.IsChain.cons (ih [c]) ?_
          intro q hq _
          rw [hcut, List.head?_cons, Option.mem_some_iff] at hq
          subst hq
          simpa [keyOf] using hac

/-- Without marks neighbouring runs have different keys. -/
theorem isChain_cut_items (run l : List α) :
    (cut key run (l.map .item)).IsChain (fun p q => keyOf key p ≠ keyOf key q) := by
  induction l generalizing run with
  | nil => cases run <;> simp
  | cons c l ih =>
    cases run with
    | nil => exact ih [c]
    | cons a run =>
      rw [List.map_cons, cut_cons_item]
      split
      · exact ih _
      · next hac =>
        obtain ⟨p, ps, hcut⟩ := exists_cut_cons key c [] (l.map .item)
        refine List.IsChain.cons (ih [c]) ?_
        intro q hq
        rw [hcut, List.head?_cons, Option.mem_some_iff] at hq
        subst hq
        simpa [keyOf] using hac

/-- Without marks the runs of the keys are the maximal ones. -/
theorem map_cut_items (l : List α) :
    (cut key [] (l.map .item)).map (List.map key) = (l.map key).splitBy (· == ·) := by
  symm
  have hhom := homogeneous_of_mem_cut key [] (Homogeneous.nil key) (l.map Event.item)
  refine List.splitBy_eq_iff.2 ⟨?_, ?_, ?_, ?_⟩
  · rw [← List.map_flatten, flatten_cut, items_map_item, List.nil_append]
  · intro hnil
    obtain ⟨p, hp, hmap⟩ := List.mem_map.1 hnil
    exact nil_notMem_cut key [] _ (List.map_eq_nil_iff.1 hmap ▸ hp)
  · intro m hm
    obtain ⟨p, hp, rfl⟩ := List.mem_map.1 hm
    refine (List.pairwise_map.2 (List.pairwise_iff_forall_sublist.2 ?_)).isChain
    intro a b hab
    simpa using hhom p hp a (hab.subset (by simp)) b (hab.subset (by simp))
  · refine (List.isChain_map _).2 ((isChain_cut_items key [] l).imp_of_mem_imp ?_)
    intro p q hp hq hne
    have hpne : p ≠ [] := fun h => nil_notMem_cut key [] _ (h ▸ hp)
    have hqne : q ≠ [] := fun h => nil_notMem_cut key [] _ (h ▸ hq)
    refine ⟨by simpa using hpne, by simpa using hqne, ?_⟩
    have hlast : key (p.getLast hpne) = key (p.head hpne) :=
      hhom p hp _ (List.getLast_mem hpne) _ (List.head_mem hpne)
    rw [List.getLast_map, List.head_map, hlast, beq_eq_false_iff_ne]
    intro heq
    exact hne (by rw [keyOf, keyOf, List.head?_eq_some_head hpne, List.head?_eq_some_head hqne,
      Option.map_some, Option.map_some, heq])

/-- Marks only cut finer: every run is part of a run that is there without them. -/
theorem exists_le_of_mem_cut {run run' : List α} (hsuffix : run <:+ run')
    (hhom : Homogeneous key run') (es : List (Event α)) :
    ∀ p ∈ cut key run es, ∃ q ∈ cut key run' ((items es).map .item), p.length ≤ q.length := by
  induction es generalizing run run' with
  | nil =>
    intro p hp
    cases run with
    | nil => exact absurd hp (by simp)
    | cons a run =>
      obtain rfl : p = a :: run := by simpa using hp
      cases run' with
      | nil => exact absurd hsuffix (by simp)
      | cons a' run' => exact ⟨a' :: run', by simp [items], hsuffix.length_le⟩
  | cons e es ih =>
    cases e with
    | mark =>
      intro p hp
      rw [cut_mark] at hp
      split at hp
      · next hlong =>
        rcases List.mem_cons.1 hp with rfl | hp
        · cases run' with
          | nil =>
            have hlength := hsuffix.length_le
            simp only [List.length_nil] at hlength
            omega
          | cons a' run' =>
            obtain ⟨q, qs, hcut⟩ := exists_cut_cons key a' run' ((items es).map .item)
            refine ⟨a' :: run' ++ q, by rw [items, hcut]; exact List.mem_cons_self, ?_⟩
            exact hsuffix.length_le.trans (by simp)
        · exact ih List.nil_suffix hhom p hp
      · exact ih hsuffix hhom p hp
    | item c =>
      rw [items, List.map_cons]
      have hsingle := ih (List.suffix_refl [c]) (Homogeneous.singleton key c)
      cases run' with
      | nil =>
        obtain rfl := List.suffix_nil.1 hsuffix
        exact hsingle
      | cons a' run' =>
        rw [cut_cons_item]
        cases run with
        | nil =>
          rw [cut_nil_item]
          split
          · next hac => exact ih (List.suffix_append _ _) (hhom.concat hac)
          · intro p hp
            obtain ⟨q, hq, hle⟩ := hsingle p hp
            exact ⟨q, List.mem_cons_of_mem _ hq, hle⟩
        | cons a run =>
          have hkey : key a = key a' :=
            hhom a (hsuffix.subset List.mem_cons_self) a' List.mem_cons_self
          rw [cut_cons_item, hkey]
          split
          · next hac => exact ih (List.suffix_append_self_iff.2 hsuffix) (hhom.concat hac)
          · intro p hp
            rcases List.mem_cons.1 hp with rfl | hp
            · exact ⟨a' :: run', List.mem_cons_self, hsuffix.length_le⟩
            · obtain ⟨q, hq, hle⟩ := hsingle p hp
              exact ⟨q, List.mem_cons_of_mem _ hq, hle⟩

end Cut

/-! ## Maximal runs and coarser cuts -/

/-- A group at the front of a list of runs is the first run or a proper part of it: the next run has
    another key. -/
theorem head_eq_or_part {key : α → κ} {g p : List α} {rest : List α} {runs : List (List α)}
    (hg : Homogeneous key g) (hp : p ≠ []) (hruns : ∀ q ∈ runs, q ≠ [])
    (hnext : ∀ q ∈ runs.head?, keyOf key p ≠ keyOf key q) (h : g ++ rest = p ++ runs.flatten) :
    (g = p ∧ rest = runs.flatten) ∨
      ∃ b extra, p = g ++ b :: extra ∧ rest = b :: extra ++ runs.flatten := by
  rcases List.append_eq_append_iff.1 h with ⟨extra, rfl, hrest⟩ | ⟨extra, rfl, hrest⟩
  · cases extra with
    | nil => exact .inl ⟨(List.append_nil g).symm, hrest⟩
    | cons b extra => exact .inr ⟨b, extra, rfl, hrest⟩
  · cases extra with
    | nil => exact .inl ⟨List.append_nil p, hrest.symm⟩
    | cons b extra =>
      -- the group would reach into the next run
      obtain ⟨c, p, rfl⟩ := List.exists_cons_of_ne_nil hp
      cases runs with
      | nil => exact absurd hrest (by simp)
      | cons q runs =>
        obtain ⟨d, q, rfl⟩ := List.exists_cons_of_ne_nil (hruns q List.mem_cons_self)
        obtain ⟨rfl, -⟩ := List.cons_eq_cons.1 hrest
        exact absurd (congrArg some (hg c (by simp) d (by simp))) (hnext (d :: q) (by simp))

/-- A cut into homogeneous groups has at least as many groups as there are maximal runs, and with as
    many groups it is the cut into maximal runs. -/
theorem length_le_of_flatten_eq {key : α → κ} {groups runs : List (List α)}
    (hgroups : ∀ g ∈ groups, g ≠ [] ∧ Homogeneous key g)
    (hruns : ∀ p ∈ runs, p ≠ [] ∧ Homogeneous key p)
    (hchain : runs.IsChain (fun p q => keyOf key p ≠ keyOf key q))
    (h : groups.flatten = runs.flatten) :
    runs.length ≤ groups.length ∧ (groups.length = runs.length → groups = runs) := by
  induction groups generalizing runs with
  | nil =>
    have hnil : runs = [] := by
      cases runs with
      | nil => rfl
      | cons p runs => exact absurd (List.append_eq_nil_iff.1 h.symm).1 (hruns p (by simp)).1
    simp [hnil]
  | cons g groups ih =>
    obtain ⟨hg, hghom⟩ := hgroups g List.mem_cons_self
    have hgroups' : ∀ g ∈ groups, g ≠ [] ∧ Homogeneous key g :=
      fun g' hg' => hgroups g' (List.mem_cons_of_mem _ hg')
    cases runs with
    | nil => exact absurd (List.append_eq_nil_iff.1 h).1 hg
    | cons p runs =>
      obtain ⟨hp, hphom⟩ := hruns p List.mem_cons_self
      have hruns' : ∀ q ∈ runs, q ≠ [] ∧ Homogeneous key q :=
        fun q hq => hruns q (List.mem_cons_of_mem _ hq)
      obtain ⟨hnext, hchain'⟩ := List.isChain_cons.1 hchain
      rcases head_eq_or_part hghom hp (fun q hq => (hruns' q hq).1) hnext h with
        ⟨rfl, hrest⟩ | ⟨b, extra, rfl, hrest⟩
      · obtain ⟨hle, heq⟩ := ih hgroups' hruns' hchain' hrest
        exact ⟨Nat.succ_le_succ hle, fun hlength => by rw [heq (Nat.succ.inj hlength)]⟩
      · -- what is left of the run is the first one for the groups behind
        obtain ⟨a, g, rfl⟩ := List.exists_cons_of_ne_nil hg
        have hhom : Homogeneous key (b :: extra) :=
          fun c hc d hd => hphom c (List.mem_append_right _ hc) d (List.mem_append_right _ hd)
        have hkeys : keyOf key (a :: g ++ b :: extra) = keyOf key (b :: extra) :=
          congrArg some (hphom a (by simp) b (by simp))
        have hruns'' : ∀ q ∈ (b :: extra) :: runs, q ≠ [] ∧ Homogeneous key q := by
          intro q hq
          rcases List.mem_cons.1 hq with rfl | hq
          · exact ⟨by simp, hhom⟩
          · exact hruns' q hq
        obtain ⟨hle, -⟩ := ih hgroups' hruns''
          (List.IsChain.cons hchain' (fun q hq => hkeys ▸ hnext q hq)) hrest
        simp only [List.length_cons] at hle ⊢
        exact ⟨by omega, fun hlength => by omega⟩

/-- A position in the concatenation is between two of the lists or inside one. -/
theorem exists_split_flatten (ps : List (List α)) {i : Nat} (h : i ≤ ps.flatten.length) :
    (∃ dropped kept, ps = dropped ++ kept ∧ i = dropped.flatten.length) ∨
    ∃ dropped front back kept, ps = dropped ++ (front ++ back) :: kept ∧ front ≠ [] ∧ back ≠ [] ∧
      i = dropped.flatten.length + front.length := by
  induction ps generalizing i with
  | nil => exact .inl ⟨[], [], rfl, Nat.le_zero.1 h⟩
  | cons p ps ih =>
    rcases Nat.lt_or_ge i p.length with hlt | hge
    · rcases Nat.eq_zero_or_pos i with rfl | hpos
      · exact .inl ⟨[], p :: ps, rfl, rfl⟩
      · refine .inr ⟨[], p.take i, p.drop i, ps, by simp, ?_, ?_, ?_⟩
        · intro hnil
          have hlength := congrArg List.length hnil
          rw [List.length_take, List.length_nil] at hlength
          omega
        · intro hnil
          have hlength := congrArg List.length hnil
          rw [List.length_drop, List.length_nil] at hlength
          omega
        · rw [List.length_take, List.flatten_nil, List.length_nil]
          omega
    · rw [List.flatten_cons, List.length_append] at h
      obtain ⟨j, rfl⟩ := Nat.exists_eq_add_of_le hge
      rcases ih (i := j) (by omega) with ⟨dropped, kept, rfl, rfl⟩ |
        ⟨dropped, front, back, kept, rfl, hfront, hback, rfl⟩
      · exact .inl ⟨p :: dropped, kept, rfl, by simp⟩
      · exact .inr ⟨p :: dropped, front, back, kept, rfl, hfront, hback, by simp [Nat.add_assoc]⟩

/-! ## Records -/

/-- The records of the runs of two or more items. -/
def records (key : α → κ) : List (List α) → List (κ × Nat)
  | [] => []
  | (a :: _ :: run) :: ps => (key a, run.length + 2) :: records key ps
  | _ :: ps => records key ps

theorem records_append (key : α → κ) (ps qs : List (List α)) :
    records key (ps ++ qs) = records key ps ++ records key qs := by
  induction ps with
  | nil => rfl
  | cons p ps ih => rcases p with _ | ⟨a, _ | ⟨b, run⟩⟩ <;> simp [records, ih]

/-- The records are those of the runs of keys. -/
theorem records_map (key : α → κ) (ps : List (List α)) :
    records id (ps.map (List.map key)) = records key ps := by
  induction ps with
  | nil => rfl
  | cons p ps ih => rcases p with _ | ⟨a, _ | ⟨b, run⟩⟩ <;> simp [records, ih]

/-- Every run counts for its items: one with a record for the recorded length, one without for 1. -/
theorem sum_records (key : α → κ) {ps : List (List α)} (h : [] ∉ ps) :
    ((records key ps).map Prod.snd).sum + ps.length
      = ps.flatten.length + (records key ps).length := by
  induction ps with
  | nil => rfl
  | cons p ps ih =>
    have hrest := ih (fun hmem => h (List.mem_cons_of_mem _ hmem))
    rcases p with _ | ⟨a, _ | ⟨b, run⟩⟩
    · exact absurd List.mem_cons_self h
    · simp only [records, List.length_cons, List.flatten_cons, List.length_append, List.length_nil]
      omega
    · simp only [records, List.length_cons, List.flatten_cons, List.length_append, List.map_cons,
        List.sum_cons]
      omega

/-- No run of one item is followed, as far as the runs of two or more items go, by one of its own
    key. -/
def Unambiguous (runs : List (List κ)) : Prop :=
  ∀ pre k post, runs = pre ++ [k] :: post →
    ∀ r, post.find? (fun r => decide (1 < r.length)) = some r → r.head? ≠ some k

theorem unambiguous_cons {p : List κ} {ps : List (List κ)} :
    Unambiguous (p :: ps) ↔
      (∀ k, p = [k] → ∀ r, ps.find? (fun r => decide (1 < r.length)) = some r → r.head? ≠ some k) ∧
        Unambiguous ps := by
  constructor
  · intro h
    refine ⟨?_, ?_⟩
    · rintro k rfl r hr
      exact h [] k ps rfl r hr
    · intro pre k post hps
      exact h (p :: pre) k post (by rw [hps, List.cons_append])
  · rintro ⟨hhead, htail⟩ pre k post hps
    cases pre with
    | nil =>
      obtain ⟨rfl, rfl⟩ := List.cons_eq_cons.1 hps
      exact hhead k rfl
    | cons q pre =>
      obtain ⟨rfl, rfl⟩ := List.cons_eq_cons.1 hps
      exact htail pre k post rfl

/-- To see that runs are unambiguous, compare each run of one item with the next longer run. -/
instance decidableUnambiguous [DecidableEq κ] :
    (runs : List (List κ)) → Decidable (Unambiguous runs)
  | [] => isTrue (fun _ _ _ hnil => absurd hnil (by simp))
  | p :: ps =>
      have := decidableUnambiguous ps
      decidable_of_iff
        ((p.length = 1 →
            ∀ r ∈ ps.find? (fun q : List κ => decide (1 < q.length)), r.head? ≠ p.head?) ∧
          Unambiguous ps) (by
        rw [unambiguous_cons]
        refine and_congr_left (fun _ => ⟨?_, ?_⟩)
        · rintro h k rfl
          exact h rfl
        · intro h hone
          obtain ⟨k, rfl⟩ := List.length_eq_one_iff.1 hone
          exact h k rfl)

/-- `Follows key runs recs left`: reading the runs in order, a run of two or more items finds its
    record at the head of the records and takes it, and a run of one item finds no record of its
    key there. `left` are the records not taken. -/
inductive Follows (key : α → κ) : List (List α) → List (κ × Nat) → List (κ × Nat) → Prop
  | nil (recs : List (κ × Nat)) : Follows key [] recs recs
  | single (a : α) (ps : List (List α)) (recs left : List (κ × Nat)) :
      (∀ r ∈ recs.head?, r.1 ≠ key a) → Follows key ps recs left →
      Follows key ([a] :: ps) recs left
  | run (a b : α) (p : List α) (ps : List (List α)) (recs left : List (κ × Nat)) :
      Follows key ps recs left →
      Follows key ((a :: b :: p) :: ps) ((key a, p.length + 2) :: recs) left

/-- The next record is the one of the next run of two or more items. -/
theorem head?_records (key : α → κ) (ps : List (List α)) :
    (records key ps).head?.map Prod.fst
      = ((ps.map (List.map key)).find? (fun r => decide (1 < r.length))).bind List.head? := by
  induction ps with
  | nil => rfl
  | cons p ps ih =>
    rcases p with _ | ⟨a, _ | ⟨b, run⟩⟩
    · simpa [records] using ih
    · simpa [records] using ih
    · simp [records]

/-- The runs' own records can be followed when the runs are unambiguous. -/
theorem follows_records (key : α → κ) (ps : List (List α)) (hnil : [] ∉ ps)
    (h : Unambiguous (ps.map (List.map key))) : Follows key ps (records key ps) [] := by
  induction ps with
  | nil => exact .nil []
  | cons p ps ih =>
    obtain ⟨hhead, htail⟩ := unambiguous_cons.1 h
    have hrest := ih (fun hmem => hnil (List.mem_cons_of_mem _ hmem)) htail
    rcases p with _ | ⟨a, _ | ⟨b, run⟩⟩
    · exact absurd List.mem_cons_self hnil
    · refine .single a ps (records key ps) [] ?_ hrest
      intro r hr heq
      have hfst : (records key ps).head?.map Prod.fst = some (key a) := by
        rw [Option.mem_def.1 hr, Option.map_some, heq]
      rw [head?_records, Option.bind_eq_some_iff] at hfst
      obtain ⟨q, hq, hqa⟩ := hfst
      exact hhead (key a) rfl q hq hqa
    · exact .run a b run ps _ _ hrest

/-! ## Records that are not the runs' own -/

/-- Reading along takes exactly the records of the runs. -/
theorem Follows.eq_append {key : α → κ} {ps : List (List α)} {recs left : List (κ × Nat)}
    (h : Follows key ps recs left) : recs = records key ps ++ left := by
  induction h with
  | nil recs => rfl
  | single a ps recs left hhead hfollows ih => exact ih
  | run a b p ps recs left hfollows ih => rw [records, List.cons_append, ih]

/-- The records lead through the runs: they begin with the runs' own, no run of one item is taken
    for a later one of its key, and the first record left over is not of the key of such a run
    either, as far as no longer run comes behind it. -/
def LeadThrough (key : α → κ) (recs : List (κ × Nat)) (ps : List (List α)) : Prop :=
  ∃ left, recs = records key ps ++ left ∧ Unambiguous (ps.map (List.map key)) ∧
    ∀ pre a post, ps = pre ++ [a] :: post → records key post = [] →
      ∀ r ∈ left.head?, r.1 ≠ key a

/-- What a run of one item finds at the head of the records: the record of the next longer run, or
    the first one left over. -/
theorem head_append_iff {key : α → κ} {ps : List (List α)} {left : List (κ × Nat)} {a : α} :
    (∀ r ∈ (records key ps ++ left).head?, r.1 ≠ key a) ↔
      (∀ q, (ps.map (List.map key)).find? (fun q => decide (1 < q.length)) = some q →
        q.head? ≠ some (key a)) ∧
      (records key ps = [] → ∀ r ∈ left.head?, r.1 ≠ key a) := by
  have hfirst := head?_records key ps
  cases hrecords : records key ps with
  | nil =>
    rw [hrecords, List.head?_nil, Option.map_none, eq_comm, Option.bind_eq_none_iff] at hfirst
    constructor
    · intro h
      exact ⟨fun q hq hhead => absurd (hfirst q hq) (by simp [hhead]), fun _ => h⟩
    · intro h
      exact h.2 rfl
  | cons rec recs =>
    rw [hrecords, List.head?_cons, Option.map_some, eq_comm, Option.bind_eq_some_iff] at hfirst
    obtain ⟨q, hq, hhead⟩ := hfirst
    constructor
    · intro h
      refine ⟨fun q' hq' heq => ?_, fun hnil => absurd hnil (by simp)⟩
      obtain rfl := Option.some.inj (hq.symm.trans hq')
      exact h rec (by simp) (Option.some.inj (hhead.symm.trans heq))
    · intro h r hr heq
      obtain rfl : rec = r := by simpa using hr
      exact h.1 q hq (by rw [hhead, heq])

/-- Records can be followed through the runs exactly if they lead through them. -/
theorem exists_follows_iff {key : α → κ} {ps : List (List α)} {recs : List (κ × Nat)}
    (hnil : [] ∉ ps) : (∃ left, Follows key ps recs left) ↔ LeadThrough key recs ps := by
  constructor
  · rintro ⟨left, h⟩
    refine ⟨left, h.eq_append, ?_⟩
    induction h with
    | nil recs => exact ⟨fun pre _ _ h => absurd h (by simp), fun pre _ _ h => absurd h (by simp)⟩
    | single a ps recs left hhead hfollows ih =>
      obtain ⟨hunambiguous, hleft⟩ := ih (fun hmem => hnil (List.mem_cons_of_mem _ hmem))
      rw [hfollows.eq_append, head_append_iff] at hhead
      refine ⟨unambiguous_cons.2 ⟨?_, hunambiguous⟩, ?_⟩
      · intro k hk
        obtain rfl : key a = k := by simpa using hk
        exact hhead.1
      · intro pre b post hps
        cases pre with
        | nil =>
          obtain ⟨hab, rfl⟩ := List.cons_eq_cons.1 hps
          obtain rfl : a = b := by simpa using hab
          exact hhead.2
        | cons p pre =>
          obtain ⟨rfl, rfl⟩ := List.cons_eq_cons.1 hps
          exact hleft pre b post rfl
    | run a b p ps recs left hfollows ih =>
      obtain ⟨hunambiguous, hleft⟩ := ih (fun hmem => hnil (List.mem_cons_of_mem _ hmem))
      refine ⟨unambiguous_cons.2 ⟨fun k hk => absurd hk (by simp), hunambiguous⟩, ?_⟩
      intro pre c post hps
      cases pre with
      | nil => exact absurd (List.cons_eq_cons.1 hps).1 (by simp)
      | cons q pre =>
        obtain ⟨rfl, rfl⟩ := List.cons_eq_cons.1 hps
        exact hleft pre c post rfl
  · rintro ⟨left, rfl, hunambiguous, hleft⟩
    refine ⟨left, ?_⟩
    induction ps with
    | nil => exact .nil left
    | cons p ps ih =>
      obtain ⟨hhead, htail⟩ := unambiguous_cons.1 hunambiguous
      have hrest := ih (fun hmem => hnil (List.mem_cons_of_mem _ hmem)) htail
        (fun pre a post hps => hleft (p :: pre) a post (by rw [hps, List.cons_append]))
      rcases p with _ | ⟨a, _ | ⟨b, p⟩⟩
      · exact absurd List.mem_cons_self hnil
      · exact .single a ps _ left
          (head_append_iff.2 ⟨hhead (key a) rfl, hleft [] a ps rfl⟩) hrest
      · exact .run a b p ps _ left hrest

theorem records_eq_nil_iff (key : α → κ) {ps : List (List α)} (hnil : [] ∉ ps) :
    records key ps = [] ↔ ∀ p ∈ ps, p.length = 1 := by
  induction ps with
  | nil => simp [records]
  | cons p ps ih =>
    have hrest := ih (fun hmem => hnil (List.mem_cons_of_mem _ hmem))
    rcases p with _ | ⟨a, _ | ⟨b, p⟩⟩
    · exact absurd List.mem_cons_self hnil
    · simpa [records] using hrest
    · simp [records]

/-- Without records only runs of one item each can be read along. -/
theorem leadThrough_nil_iff {key : α → κ} {ps : List (List α)} (hnil : [] ∉ ps) :
    LeadThrough key [] ps ↔ ∀ p ∈ ps, p.length = 1 := by
  rw [← records_eq_nil_iff key hnil]
  constructor
  · rintro ⟨left, heq, -, -⟩
    exact (List.append_eq_nil_iff.1 heq.symm).1
  · intro hrecords
    refine ⟨[], by rw [hrecords, List.append_nil], ?_, by simp⟩
    intro pre k post hsplit q hq
    have hall := (records_eq_nil_iff key hnil).1 hrecords
    have hmem : q ∈ ps.map (List.map key) := by
      rw [hsplit]
      exact List.mem_append_right _ (List.mem_cons_of_mem _ (List.mem_of_find?_eq_some hq))
    obtain ⟨p, hp, rfl⟩ := List.mem_map.1 hmem
    have hlong := List.find?_some hq
    rw [decide_eq_true_eq, List.length_map, hall p hp] at hlong
    exact absurd hlong (by simp)

/-- Without the record of the last run the rest leads through the runs exactly if the last run has
    no record. -/
theorem leadThrough_dropLast_iff {key : α → κ} {ps : List (List α)} (hnil : [] ∉ ps) :
    LeadThrough key (records key ps.dropLast) ps ↔
      Unambiguous (ps.map (List.map key)) ∧ ∀ p ∈ ps.getLast?, p.length = 1 := by
  rcases List.eq_nil_or_concat' ps with rfl | ⟨front, p, rfl⟩
  · exact ⟨fun ⟨left, _, h, _⟩ => ⟨h, by simp⟩,
      fun h => ⟨[], rfl, h.1, fun pre _ _ heq => absurd heq (by simp)⟩⟩
  · rw [List.dropLast_concat, List.getLast?_concat]
    have hlast : records key [p] = [] ↔ p.length = 1 := by
      rcases p with _ | ⟨a, _ | ⟨b, p⟩⟩
      · exact absurd (List.mem_append_right _ (List.mem_singleton.2 rfl)) hnil
      · simp [records]
      · simp [records]
    constructor
    · rintro ⟨left, heq, hunambiguous, -⟩
      refine ⟨hunambiguous, ?_⟩
      rintro q hq
      obtain rfl := Option.some.inj hq
      rw [records_append, List.append_assoc] at heq
      have hrest := List.append_cancel_left ((List.append_nil _).trans heq)
      exact hlast.1 (List.append_eq_nil_iff.1 hrest.symm).1
    · rintro ⟨hunambiguous, hsingle⟩
      refine ⟨[], ?_, hunambiguous, by simp⟩
      rw [records_append, hlast.2 (hsingle p rfl), List.append_nil, List.append_nil]

/-! ## Renaming -/

section Rename

variable {κ' : Type u}

/-- Renaming the items one to one does not change whether runs are unambiguous. -/
theorem unambiguous_map_iff {f : κ → κ'} {runs : List (List κ)}
    (hf : ∀ a ∈ runs.flatten, ∀ b ∈ runs.flatten, f a = f b → a = b) :
    Unambiguous (runs.map (List.map f)) ↔ Unambiguous runs := by
  induction runs with
  | nil => exact ⟨fun _ _ _ _ h => absurd h (by simp), fun _ _ _ _ h => absurd h (by simp)⟩
  | cons p ps ih =>
    simp only [List.flatten_cons, List.mem_append] at hf
    have hrest := ih (fun a ha b hb => hf a (.inr ha) b (.inr hb))
    have hfind : (ps.map (List.map f)).find? (fun r => decide (1 < r.length))
        = (ps.find? (fun r => decide (1 < r.length))).map (List.map f) := by
      rw [List.find?_map]
      simp only [Function.comp_def, List.length_map]
    rw [List.map_cons, unambiguous_cons, unambiguous_cons, hrest, hfind]
    refine and_congr_left (fun _ => ⟨?_, ?_⟩)
    · rintro h k rfl r hr hhead
      refine h (f k) rfl (r.map f) (by rw [hr, Option.map_some]) ?_
      rw [List.head?_map, hhead, Option.map_some]
    · rintro h k' hk' r' hr' hhead
      obtain ⟨k, rfl, rfl⟩ := List.map_eq_singleton_iff.1 hk'
      obtain ⟨r, hr, rfl⟩ := Option.map_eq_some_iff.1 hr'
      rw [List.head?_map, Option.map_eq_some_iff] at hhead
      obtain ⟨b, hb, hbk⟩ := hhead
      have hmem : b ∈ ps.flatten :=
        List.mem_flatten.2 ⟨r, List.mem_of_find?_eq_some hr, List.mem_of_head? hb⟩
      refine h k rfl r hr ?_
      rw [hb, hf b (.inr hmem) k (.inl (List.mem_singleton.2 rfl)) hbk]

/-- Renaming the items one to one renames the maximal runs. -/
theorem splitBy_map [DecidableEq κ] [DecidableEq κ'] {f : κ → κ'} {l : List κ}
    (hf : ∀ a ∈ l, ∀ b ∈ l, f a = f b → a = b) :
    (l.map f).splitBy (· == ·) = (l.splitBy (· == ·)).map (List.map f) := by
  have hmem : ∀ p ∈ l.splitBy (· == ·), ∀ a ∈ p, a ∈ l := by
    intro p hp a ha
    have hflat := List.mem_flatten.2 ⟨p, hp, ha⟩
    rwa [List.flatten_splitBy] at hflat
  refine List.splitBy_eq_iff.2 ⟨?_, ?_, ?_, ?_⟩
  · rw [← List.map_flatten, List.flatten_splitBy]
  · intro hnil
    obtain ⟨p, hp, hmap⟩ := List.mem_map.1 hnil
    exact List.ne_nil_of_mem_splitBy hp (List.map_eq_nil_iff.1 hmap)
  · intro m hm
    obtain ⟨p, hp, rfl⟩ := List.mem_map.1 hm
    refine (List.isChain_map f).2 ((List.isChain_of_mem_splitBy hp).imp ?_)
    intro a b hab
    simp only [beq_iff_eq] at hab ⊢
    rw [hab]
  · refine (List.isChain_map _).2
      ((List.isChain_getLast_head_splitBy (· == ·) l).imp_of_mem_imp ?_)
    rintro p q hp hq ⟨hpne, hqne, hne⟩
    refine ⟨by simpa using hpne, by simpa using hqne, ?_⟩
    rw [List.getLast_map, List.head_map]
    rw [beq_eq_false_iff_ne] at hne ⊢
    intro heq
    exact hne (hf _ (hmem p hp _ (List.getLast_mem hpne)) _ (hmem q hq _ (List.head_mem hqne)) heq)

end Rename

end Runs
