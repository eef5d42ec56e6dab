import Mathlib.Data.List.TakeDrop
import Mathlib.Logic.Function.Basic

set_option autoImplicit false

/-! # Files and the streams open on them

A `Disk` says what every file contains. A stream writes one file from a position of its own on, as
a C stream opened for writing does: it may keep items back and hand them over later, and it never
looks at what is in the file, so two streams on one file overwrite each other.

`Keeps` says that a file is left to one stream: then the file and what the stream still holds are
what was written to the stream, and no operation on another stream changes that (`Keeps.frame`). -/

universe u v w

/-- The contents of the files; `none`: there is no such file. -/
abbrev Disk (φ : Type u) (α : Type v) := φ → Option (List α)

/-- `items` in a file from `position` on; a gap behind the old end is filled up. -/
def overwrite {α : Type v} [Inhabited α] (old : List α) (position : Nat) (items : List α) :
    List α :=
  if items = [] then old
  else old.takeD position default ++ items ++ old.drop (position + items.length)

theorem overwrite_end {α : Type v} [Inhabited α] (old items : List α) :
    overwrite old old.length items = old ++ items := by
  unfold overwrite
  split
  · next h => rw [h, List.append_nil]
  · rw [List.takeD_eq_take _ (Nat.le_refl _), List.take_length,
      List.drop_of_length_le (Nat.le_add_right _ _), List.append_nil]

/-- A stream opened for writing: its file, where it writes next, and what it has not handed over. -/
structure OutStream (φ : Type u) (α : Type v) where
  file : φ
  position : Nat
  pending : List α
  deriving DecidableEq

/-- How many items a stream hands over by itself when it has so many. -/
abbrev Buffering := Nat → Nat

/-- A stream that keeps nothing back. -/
def unbuffered : Buffering := id

/-- The files and the open streams, by the names `ι` that the program has for them. -/
structure OpenFiles (ι : Type w) (φ : Type u) (α : Type v) where
  disk : Disk φ α
  stream : ι → Option (OutStream φ α)

namespace OpenFiles

variable {ι : Type w} {φ : Type u} {α : Type v} [DecidableEq ι] [DecidableEq φ] [Inhabited α]

/-- Open `file` for writing: it is created, or made empty. -/
def fopen (o : OpenFiles ι φ α) (k : ι) (file : φ) : OpenFiles ι φ α :=
  ⟨Function.update o.disk file (some []), Function.update o.stream k (some ⟨file, 0, []⟩)⟩

/-- Give stream `k` more items and let it hand over as many as `buffering` says. -/
def send (o : OpenFiles ι φ α) (k : ι) (items : List α) (buffering : Buffering) :
    OpenFiles ι φ α :=
  match o.stream k with
  | none => o
  | some s =>
      let count := buffering (s.pending ++ items).length
      let now := (s.pending ++ items).take count
      ⟨Function.update o.disk s.file ((o.disk s.file).map (overwrite · s.position now)),
        Function.update o.stream k
          (some ⟨s.file, s.position + now.length, (s.pending ++ items).drop count⟩)⟩

def fwrite (o : OpenFiles ι φ α) (k : ι) (items : List α) (buffering : Buffering) :
    OpenFiles ι φ α :=
  o.send k items buffering

/-- Hand over everything. -/
def fflush (o : OpenFiles ι φ α) (k : ι) : OpenFiles ι φ α := o.send k [] unbuffered

/-- Hand over everything and close the stream. -/
def fclose (o : OpenFiles ι φ α) (k : ι) : OpenFiles ι φ α :=
  { o.fflush k with stream := Function.update (o.fflush k).stream k none }

section Streams

omit [Inhabited α]

theorem stream_fopen (o : OpenFiles ι φ α) (k : ι) (file : φ) :
    (o.fopen k file).stream k = some ⟨file, 0, []⟩ := Function.update_self _ _ _

theorem stream_fopen_of_ne {k k' : ι} (hne : k' ≠ k) (o : OpenFiles ι φ α) (file : φ) :
    (o.fopen k file).stream k' = o.stream k' := Function.update_of_ne hne _ _

end Streams

theorem stream_fclose (o : OpenFiles ι φ α) (k : ι) : (o.fclose k).stream k = none :=
  Function.update_self _ _ _

/-! ## Frame -/

/-- From `o` to `o'` only stream `k` and its file have changed, and the stream has at most been
    closed. -/
structure OnlyAt (k : ι) (o o' : OpenFiles ι φ α) : Prop where
  disk : ∀ file, (∀ s, o.stream k = some s → s.file ≠ file) → o'.disk file = o.disk file
  others : ∀ k', k' ≠ k → o'.stream k' = o.stream k'
  same : ∀ s', o'.stream k = some s' → ∃ s, o.stream k = some s ∧ s'.file = s.file

omit [DecidableEq ι] [DecidableEq φ] [Inhabited α] in
theorem OnlyAt.trans {k : ι} {o o₁ o₂ : OpenFiles ι φ α} (h : OnlyAt k o o₁)
    (h' : OnlyAt k o₁ o₂) : OnlyAt k o o₂ where
  disk file hfile := by
    rw [h'.disk file ?_, h.disk file hfile]
    intro s₁ hs₁
    obtain ⟨s, hs, heq⟩ := h.same s₁ hs₁
    rw [heq]
    exact hfile s hs
  others k' hk' := (h'.others k' hk').trans (h.others k' hk')
  same s₂ hs₂ := by
    obtain ⟨s₁, hs₁, heq₁⟩ := h'.same s₂ hs₂
    obtain ⟨s, hs, heq⟩ := h.same s₁ hs₁
    exact ⟨s, hs, heq₁.trans heq⟩

theorem onlyAt_send (o : OpenFiles ι φ α) (k : ι) (items : List α) (buffering : Buffering) :
    OnlyAt k o (o.send k items buffering) := by
  unfold send
  cases hk : o.stream k with
  | none => exact ⟨fun _ _ => rfl, fun _ _ => rfl, fun s' hs' => ⟨s', hs', rfl⟩⟩
  | some s =>
    refine ⟨fun file hfile => ?_, fun k' hk' => ?_, fun s' hs' => ⟨s, hk, ?_⟩⟩
    · exact Function.update_of_ne (hfile s hk).symm _ _
    · exact Function.update_of_ne hk' _ _
    · simp only [Function.update_self, Option.some.injEq] at hs'
      rw [← hs']

theorem isSome_send {o : OpenFiles ι φ α} {k : ι} {s : OutStream φ α} (h : o.stream k = some s)
    {items : List α} {buffering : Buffering} :
    ((o.send k items buffering).stream k).isSome = true := by
  simp only [send, h, Function.update_self, Option.isSome_some]

theorem onlyAt_fclose (o : OpenFiles ι φ α) (k : ι) : OnlyAt k o (o.fclose k) := by
  refine (onlyAt_send o k [] unbuffered).trans ⟨fun _ _ => rfl, fun k' hk' => ?_, fun s' hs' => ?_⟩
  · exact Function.update_of_ne hk' _ _
  · exact absurd ((o.stream_fclose k).symm.trans hs') (by simp)

/-- A property of the state of one stream that the other streams do not change. -/
def Framed (A : ι → OpenFiles ι φ α → Prop) : Prop :=
  ∀ k k' o o', k' ≠ k → OnlyAt k' o o' → A k o → A k o'

omit [DecidableEq ι] [DecidableEq φ] [Inhabited α] in
/-- Operations on streams other than `k`, one after the other. -/
theorem Framed.foldl_of_notMem {A : ι → OpenFiles ι φ α → Prop} (hA : Framed A)
    {f : OpenFiles ι φ α → ι → OpenFiles ι φ α} (honly : ∀ o k, OnlyAt k o (f o k)) {k : ι}
    {ks : List ι} (hk : k ∉ ks) {o : OpenFiles ι φ α} (h : A k o) : A k (ks.foldl f o) := by
  induction ks generalizing o with
  | nil => exact h
  | cons k' ks ih =>
    rw [List.mem_cons, not_or] at hk
    exact ih hk.2 (hA k k' o _ (Ne.symm hk.1) (honly o k') h)

omit [DecidableEq ι] [DecidableEq φ] [Inhabited α] in
/-- An operation on several streams in turn does to each what it does to it alone. -/
theorem Framed.foldl {A B : ι → OpenFiles ι φ α → Prop} (hA : Framed A) (hB : Framed B)
    {f : OpenFiles ι φ α → ι → OpenFiles ι φ α} (honly : ∀ o k, OnlyAt k o (f o k))
    {ks : List ι} (hstep : ∀ o, ∀ k ∈ ks, A k o → B k (f o k)) (hnodup : ks.Nodup)
    {o : OpenFiles ι φ α} (h : ∀ k ∈ ks, A k o) : ∀ k ∈ ks, B k (ks.foldl f o) := by
  induction ks generalizing o with
  | nil => exact fun k hk => absurd hk List.not_mem_nil
  | cons k ks ih =>
    obtain ⟨hk, hks⟩ := List.nodup_cons.1 hnodup
    intro k' hk'
    rcases List.mem_cons.1 hk' with rfl | hk'
    · exact hB.foldl_of_notMem honly hk (hstep o k' List.mem_cons_self (h k' List.mem_cons_self))
    · refine ih (fun o k₁ hk₁ => hstep o k₁ (List.mem_cons_of_mem _ hk₁)) hks
        (fun k₁ hk₁ => ?_) k' hk'
      refine hA k₁ k o _ ?_ (honly o k) (h k₁ (List.mem_cons_of_mem _ hk₁))
      rintro rfl
      exact hk hk₁

/-! ## A file that is left to one stream -/

/-- `k` is the only stream that writes `file`, which contains `content`; `written` is what was
    written to the stream, open or closed. -/
structure Keeps (o : OpenFiles ι φ α) (k : ι) (file : φ) (content written : List α) : Prop where
  disk : o.disk file = some content
  alone : ∀ k' s, o.stream k' = some s → s.file = file → k' = k
  own : ∀ s, o.stream k = some s →
    s.file = file ∧ s.position = content.length ∧ content ++ s.pending = written
  closed : o.stream k = none → content = written

omit [Inhabited α] in
theorem keeps_fopen {o : OpenFiles ι φ α} {k : ι} {file : φ}
    (halone : ∀ k' s, o.stream k' = some s → s.file = file → k' = k) :
    (o.fopen k file).Keeps k file [] [] := by
  refine ⟨Function.update_self _ _ _, fun k' s hs hfile => ?_, fun s hs => ?_, fun _ => rfl⟩
  · by_cases hk : k' = k
    · exact hk
    · exact halone k' s ((stream_fopen_of_ne hk o file).symm.trans hs) hfile
  · obtain rfl := Option.some.inj ((o.stream_fopen k file).symm.trans hs)
    exact ⟨rfl, rfl, rfl⟩

omit [DecidableEq ι] [DecidableEq φ] [Inhabited α] in
/-- What is done to another stream does not matter. -/
theorem Keeps.frame {o o' : OpenFiles ι φ α} {k k' : ι} {file : φ} {content written : List α}
    (h : o.Keeps k file content written) (hne : k' ≠ k) (honly : OnlyAt k' o o') :
    o'.Keeps k file content written := by
  have hself : o'.stream k = o.stream k := honly.others k (Ne.symm hne)
  refine ⟨?_, fun k₁ s hs hfile => ?_, fun s hs => h.own s (hself ▸ hs),
    fun hs => h.closed (hself ▸ hs)⟩
  · rw [honly.disk file ?_, h.disk]
    intro s hs hfile
    exact hne (h.alone k' s hs hfile)
  · by_cases hk : k₁ = k'
    · subst hk
      obtain ⟨s₀, hs₀, heq⟩ := honly.same s hs
      exact h.alone k₁ s₀ hs₀ (heq.symm.trans hfile)
    · exact h.alone k₁ s ((honly.others k₁ hk).symm.trans hs) hfile

omit [Inhabited α] in
/-- Neither does opening another file. -/
theorem Keeps.fopen_of_ne {o : OpenFiles ι φ α} {k k' : ι} {file file' : φ}
    {content written : List α} (h : o.Keeps k file content written) (hne : k' ≠ k)
    (hfile : file' ≠ file) : (o.fopen k' file').Keeps k file content written := by
  have hself : (o.fopen k' file').stream k = o.stream k :=
    stream_fopen_of_ne (Ne.symm hne) o file'
  refine ⟨(Function.update_of_ne (Ne.symm hfile) _ _).trans h.disk, fun k₁ s hs hs' => ?_,
    fun s hs => h.own s (hself ▸ hs), fun hs => h.closed (hself ▸ hs)⟩
  by_cases hk : k₁ = k'
  · subst hk
    obtain rfl := Option.some.inj ((o.stream_fopen k₁ file').symm.trans hs)
    exact absurd hs' hfile
  · exact h.alone k₁ s ((stream_fopen_of_ne hk o file').symm.trans hs) hs'

/-- What is given to the stream goes to the end of the file, now or later. -/
theorem Keeps.send {o : OpenFiles ι φ α} {k : ι} {file : φ} {content written : List α}
    (h : o.Keeps k file content written) {s : OutStream φ α} (hopen : o.stream k = some s)
    (items : List α) (buffering : Buffering) :
    (o.send k items buffering).Keeps k file
      (content ++ (s.pending ++ items).take (buffering (s.pending ++ items).length))
      (written ++ items) := by
  obtain ⟨rfl, hposition, hwritten⟩ := h.own s hopen
  have honly := onlyAt_send o k items buffering
  refine ⟨?_, fun k' s' hs' hfile => ?_, fun s' hs' => ?_, fun hs' => ?_⟩
  · simp only [OpenFiles.send, hopen]
    rw [Function.update_self, h.disk, Option.map_some, hposition, overwrite_end]
  · by_cases hk : k' = k
    · exact hk
    · exact h.alone k' s' ((honly.others k' hk).symm.trans hs') hfile
  · simp only [OpenFiles.send, hopen] at hs'
    rw [Function.update_self, Option.some.injEq] at hs'
    subst hs'
    refine ⟨rfl, ?_, ?_⟩
    · simp only [hposition, List.length_append]
    · rw [List.append_assoc, List.take_append_drop, ← List.append_assoc, hwritten]
  · simp only [OpenFiles.send, hopen] at hs'
    rw [Function.update_self] at hs'
    exact absurd hs' (by simp)

/-- An unbuffered stream keeps nothing back. -/
theorem Keeps.send_unbuffered {o : OpenFiles ι φ α} {k : ι} {file : φ} {content written : List α}
    (h : o.Keeps k file content written) {s : OutStream φ α} (hopen : o.stream k = some s)
    (items : List α) :
    (o.send k items unbuffered).Keeps k file (written ++ items) (written ++ items) := by
  have hsend := h.send hopen items unbuffered
  have hall : content ++ (s.pending ++ items).take (unbuffered (s.pending ++ items).length)
      = written ++ items := by
    rw [unbuffered, id, List.take_length, ← List.append_assoc, (h.own s hopen).2.2]
  rw [hall] at hsend
  exact hsend

theorem Keeps.fflush {o : OpenFiles ι φ α} {k : ι} {file : φ} {content written : List α}
    (h : o.Keeps k file content written) {s : OutStream φ α} (hopen : o.stream k = some s) :
    (o.fflush k).Keeps k file written written := by
  have hsend := h.send_unbuffered hopen []
  rw [List.append_nil] at hsend
  exact hsend

theorem Keeps.fclose {o : OpenFiles ι φ α} {k : ι} {file : φ} {content written : List α}
    (h : o.Keeps k file content written) {s : OutStream φ α} (hopen : o.stream k = some s) :
    (o.fclose k).Keeps k file written written := by
  have hflush := h.fflush hopen
  refine ⟨hflush.disk, fun k' s' hs' hfile => ?_, fun s' hs' => ?_, fun _ => rfl⟩
  · by_cases hk : k' = k
    · exact hk
    · exact hflush.alone k' s' ((Function.update_of_ne hk _ _).symm.trans hs') hfile
  · exact absurd ((o.stream_fclose k).symm.trans hs') (by simp)

end OpenFiles
