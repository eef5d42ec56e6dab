import BinaryLog.CrashRecovery
import BinaryLog.FilePaths
import BinaryLog.Lib.OpenFiles
import BinaryLog.Loggers

set_option autoImplicit false

/-! # Loggers and their files

A program with several loggers is run together with the disk: a constructor opens three files for
writing, and what a packer hands to `fwrite` goes to a stream, of which only the log's and the
index's are unbuffered (`setvbuf`). `Env` is what the program finds: which file a name means, which
names cannot be opened, and how `stdio` buffers the runlength file.

What is in the files of one logger is said by `Holds`; it stays true whatever the program does with
other loggers, as long as nobody else opens these files (`Holds.run`). -/

namespace BinaryLog

open Simulation Runs

/-! ## Opening and mapping files -/

/-- What a program finds when it uses the file system. -/
structure Env (φ : Type) where
  /-- The file a name means. -/
  file : List UInt8 → φ
  /-- The names that cannot be opened for writing. -/
  fails : List UInt8 → Bool
  /-- How `stdio` buffers a stream by default. -/
  buffering : Buffering

namespace Env

variable {φ : Type} (env : Env φ)

/-- `fopen(path, "wb") == nullptr`; there is no file without a name. -/
def cannotOpen (path : List UInt8) : Bool := path = [] ∨ env.fails path = true

/-- `setvbuf(file, nullptr, _IONBF, 0)` for the log and the index. -/
def bufferingOf : PackerFile → Buffering
  | .log => unbuffered
  | .index => unbuffered
  | .runlength => env.buffering

/-- The constructor of a packer on `path` returns. -/
def opens (path : List UInt8) : Bool :=
  [PackerFile.log, .index, .runlength].all fun file => !env.cannotOpen (file.path path)

variable [DecidableEq φ]

/-- Open files one after the other, up to the first that cannot be opened. -/
def openAll (l : Nat) (path : List UInt8) : List PackerFile →
    OpenFiles (Nat × PackerFile) φ UInt8 → OpenFiles (Nat × PackerFile) φ UInt8 × Bool
  | [], o => (o, true)
  | k :: ks, o =>
      if env.cannotOpen (k.path path) then (o, false)
      else openAll l path ks (o.fopen (l, k) (env.file (k.path path)))

/-- The constructor of `packer`. Where it throws there is no destructor call: what it has opened
    stays empty, and nobody has the streams any more. -/
def construct (o : OpenFiles (Nat × PackerFile) φ UInt8) (l : Nat) (path : List UInt8) :
    OpenFiles (Nat × PackerFile) φ UInt8 × Bool :=
  match env.openAll l path [.log, .index, .runlength] o with
  | (o', true) => (o', true)
  | (o', false) => ({ o' with stream := o.stream }, false)

end Env

/-- The bytes for a file. -/
def Files.of (f : Files) : PackerFile → List UInt8
  | .log => f.log
  | .index => f.index
  | .runlength => f.runlength

/-! ## Programs and the disk -/

/-- One step of a program whose loggers are constructed on files. -/
inductive DiskAction (S : Type) where
  | create (path : List UInt8)
  | log (logger : Nat) (site : S) (args : List Arg)
  | flush (logger : Nat)
  | destroy (logger : Nat)

/-- The loggers, and the disk with the streams open on it, by logger and file. -/
structure DiskWorld (S φ : Type) (n m r : Nat) where
  world : World S (Packer n m r)
  files : OpenFiles (Nat × PackerFile) φ UInt8

/-- The streams of logger `l`, in the order in which `packer::flush` goes through them. -/
def streamsOf (l : Nat) : List (Nat × PackerFile) := [(l, .index), (l, .log), (l, .runlength)]

/-- The step as the loggers see it: a constructor that throws leaves no logger. -/
def DiskAction.world {S φ : Type} (env : Env φ) : DiskAction S → List (WorldAction S)
  | .create path => if env.opens path then [.create] else []
  | .log l site args => [.log l site args]
  | .flush l => [.flush l]
  | .destroy l => [.destroy l]

/-- The steps of a program as the loggers see them. -/
def worldActions {S φ : Type} (env : Env φ) (actions : List (DiskAction S)) :
    List (WorldAction S) :=
  actions.flatMap (DiskAction.world env)

namespace DiskWorld

variable {S φ : Type} [DecidableEq S] [DecidableEq φ] {n m r : Nat} (env : Env φ)
  (sites : S → CallSite)

/-- No logger, and a disk with what it has. -/
def start (disk : Disk φ UInt8) : DiskWorld S φ n m r := ⟨.start, ⟨disk, fun _ => none⟩⟩

/-- Write what the packer has handed over since it had handed over `before`. -/
def fwriteNew (before after : Files) (o : OpenFiles (Nat × PackerFile) φ UInt8)
    (k : Nat × PackerFile) : OpenFiles (Nat × PackerFile) φ UInt8 :=
  o.fwrite k ((after.of k.2).drop (before.of k.2).length) (env.bufferingOf k.2)

/-- A member call of logger `l`: what it hands over is written, then `finish` is done to each of its
    streams. -/
def member (w : DiskWorld S φ n m r) (l : Nat) (action : WorldAction S)
    (finish : OpenFiles (Nat × PackerFile) φ UInt8 → Nat × PackerFile →
      OpenFiles (Nat × PackerFile) φ UInt8) : Except Fault (DiskWorld S φ n m r) := do
  let world ← w.world.step sites action
  let written := (streamsOf l).foldl
    (fwriteNew env (w.world.logger l).packer.files (world.logger l).packer.files) w.files
  .ok ⟨world, (streamsOf l).foldl finish written⟩

def step (w : DiskWorld S φ n m r) : DiskAction S → Except Fault (DiskWorld S φ n m r)
  | .create path =>
      match env.construct w.files w.world.loggers.length path with
      | (files, true) => do
          let world ← w.world.step sites .create
          .ok ⟨world, files⟩
      | (files, false) => .ok { w with files := files }
  | .log l site args => w.member env sites l (.log l site args) (fun o _ => o)
  | .flush l => w.member env sites l (.flush l) OpenFiles.fflush
  | .destroy l => w.member env sites l (.destroy l) OpenFiles.fclose

def run (w : DiskWorld S φ n m r) (actions : List (DiskAction S)) :
    Except Fault (DiskWorld S φ n m r) :=
  actions.foldlM (step env sites) w

end DiskWorld

/-! ## Loggers that are alive -/

namespace World

variable {S : Type} {σ : Type} [PackerClass σ]

/-- Logger `l` has been constructed and not been destroyed. -/
def Alive (w : World S σ) (l : Nat) : Prop := ∃ lg, w.loggers[l]? = some (lg, true)

omit [PackerClass σ] in
theorem alive_of_use {w w' : World S σ} {l : Nat} {alive : Bool}
    {f : Logger σ → Except Fault (Statics S × Logger σ)} (h : w.use l alive f = .ok w') :
    w.Alive l ∧ w'.loggers.length = w.loggers.length ∧ (w'.Alive l ↔ alive = true) ∧
      ∀ l', l' ≠ l → (w'.Alive l' ↔ w.Alive l') := by
  unfold use at h
  split at h
  · next lg hlg =>
    simp only [bind_eq_ok, Except.ok.injEq, Prod.exists] at h
    obtain ⟨statics, lg', hf, rfl⟩ := h
    have hlength : l < w.loggers.length := (List.getElem?_eq_some_iff.1 hlg).1
    refine ⟨⟨lg, hlg⟩, List.length_set, ?_, fun l' hne => ?_⟩
    · simp only [Alive, List.getElem?_set_self hlength, Option.some.injEq, Prod.mk.injEq]
      constructor
      · rintro ⟨_, -, halive⟩
        exact halive
      · exact fun halive => ⟨lg', rfl, halive⟩
    · simp only [Alive, List.getElem?_set_ne hne.symm]
  · exact absurd h (by simp)

/-- Whatever a step does with one logger, each logger goes through member calls. -/
theorem exists_run_of_use {w w' : World S σ} {l : Nat} {alive : Bool}
    {f : Logger σ → Except Fault (Statics S × Logger σ)}
    (hf : ∀ lg res, f lg = .ok res → ∃ ops, lg.run ops = .ok res.2)
    (h : w.use l alive f = .ok w') (l' : Nat) :
    ∃ ops, (w.logger l').run ops = .ok (w'.logger l') := by
  obtain ⟨statics, lg, hlg, -, hself, hothers⟩ := use_eq_ok h
  by_cases hl : l' = l
  · subst hl
    rw [hself]
    exact hf _ _ hlg
  · exact ⟨[], by rw [hothers l' hl]; rfl⟩

variable [DecidableEq S] {sites : S → CallSite}

theorem exists_run_of_step {w w' : World S σ} {action : WorldAction S}
    (h : w.step sites action = .ok w') (l : Nat) :
    ∃ ops, (w.logger l).run ops = .ok (w'.logger l) := by
  cases action with
  | create =>
    obtain rfl := Except.ok.inj h
    exact ⟨[], by rw [logger_create]; rfl⟩
  | log l' site args =>
    refine exists_run_of_use (fun lg res hres => ?_) h l
    rw [binaryLog_eq (fun s => (sites s).formatString), map_eq_ok] at hres
    obtain ⟨lg', hrun, rfl⟩ := hres
    exact ⟨_, hrun⟩
  | flush l' =>
    refine exists_run_of_use (fun lg res hres => ?_) h l
    obtain ⟨lg', hflush, rfl⟩ := map_eq_ok.1 hres
    exact ⟨[.flush], by rw [Logger.run, List.foldlM_cons, Logger.step, hflush]; rfl⟩
  | destroy l' =>
    refine exists_run_of_use (fun lg res hres => ?_) h l
    obtain ⟨lg', hdestroy, rfl⟩ := map_eq_ok.1 hres
    exact ⟨[.flush, .flush], by rw [← Logger.destroy_eq, hdestroy]⟩

/-- The last thing done to a logger that is not alive any more was its destruction. -/
theorem actionsOn_of_destroyed {actions : List (WorldAction S)} {w : World S σ}
    (h : run sites .start actions = .ok w) {l : Nat} (hl : l < w.loggers.length)
    (hdead : ¬ w.Alive l) : ∃ pre, actionsOn l actions = pre ++ [.flush, .flush] := by
  induction actions using List.reverseRecOn generalizing w with
  | nil =>
    obtain rfl := Except.ok.inj h
    exact absurd hl (Nat.not_lt_zero l)
  | append_singleton actions action ih =>
    rw [run, List.foldlM_append, bind_eq_ok] at h
    obtain ⟨w₁, hfirst, hlast⟩ := h
    rw [List.foldlM_cons, bind_eq_ok] at hlast
    obtain ⟨w₂, hstep, hend⟩ := hlast
    obtain rfl := Except.ok.inj hend
    rw [actionsOn, List.flatMap_append, List.flatMap_singleton, ← actionsOn]
    -- a step on another logger changes nothing, one on this logger has destroyed it
    have huse : ∀ (l' : Nat) (alive : Bool) f (acts : List (Action S)),
        w₁.use l' alive f = .ok w₂ → (alive = false → acts = [.flush, .flush]) →
        ∃ pre, actionsOn l actions ++ (if l' = l then acts else []) = pre ++ [.flush, .flush] := by
      intro l' alive f acts h hacts
      obtain ⟨-, hlength, hself, hothers⟩ := alive_of_use h
      by_cases hl' : l' = l
      · subst hl'
        rw [if_pos rfl, hacts (by simpa [hself] using hdead)]
        exact ⟨_, rfl⟩
      · rw [if_neg hl', List.append_nil]
        exact ih hfirst (hlength ▸ hl) ((hothers l (Ne.symm hl')).not.1 hdead)
    cases action with
    | create =>
      obtain rfl := Except.ok.inj hstep
      rw [List.length_append, List.length_singleton] at hl
      rw [WorldAction.on, List.append_nil]
      by_cases hnew : l = w₁.loggers.length
      · refine absurd ⟨.fresh, ?_⟩ hdead
        rw [hnew, List.getElem?_append_right le_rfl, Nat.sub_self]
        rfl
      · have hold : l < w₁.loggers.length := by omega
        refine ih hfirst hold ?_
        rintro ⟨lg, hlg⟩
        exact hdead ⟨lg, by rw [List.getElem?_append_left hold, hlg]⟩
    | log l' site args => exact huse l' true _ _ hstep (by simp)
    | flush l' => exact huse l' true _ _ hstep (by simp)
    | destroy l' => exact huse l' false _ _ hstep (fun _ => rfl)

end World

/-! ## What is stored in a file -/

section Stored

variable {φ : Type} [DecidableEq φ] (env : Env φ)

/-- Of the bytes of `f` for the file of stream `k` all are in the file, except that `stdio` may hold
    back some of the runlength file, though none of `base`. -/
def Stored (path : List UInt8) (base f : Files) (k : Nat × PackerFile)
    (o : OpenFiles (Nat × PackerFile) φ UInt8) : Prop :=
  ∃ content, o.Keeps k (env.file (k.2.path path)) content (f.of k.2) ∧
    base.of k.2 <+: content ∧ (k.2 ≠ .runlength → content = f.of k.2)

variable {env} {path : List UInt8} {base f : Files} {k : Nat × PackerFile}
  {o : OpenFiles (Nat × PackerFile) φ UInt8}

omit [DecidableEq φ] in
theorem framed_stored (opened : Bool) : OpenFiles.Framed
    (fun k o => Stored env path base f k o ∧ (o.stream k).isSome = opened) := by
  rintro k k' o o' hne honly ⟨⟨content, hkeeps, hrest⟩, hopen⟩
  exact ⟨⟨content, hkeeps.frame hne honly, hrest⟩, by rw [honly.others k hne.symm, hopen]⟩

omit [DecidableEq φ] in
theorem Stored.of_base {base' : Files} (hbase : base'.of k.2 <+: base.of k.2)
    (h : Stored env path base f k o) : Stored env path base' f k o := by
  obtain ⟨content, hkeeps, hprefix, hdirect⟩ := h
  exact ⟨content, hkeeps, hbase.trans hprefix, hdirect⟩

/-- `fwrite` what a packer has handed over. -/
theorem Stored.fwriteNew {after : Files} (hafter : f.of k.2 <+: after.of k.2)
    (h : Stored env path base f k o) (hopen : (o.stream k).isSome = true) :
    Stored env path base after k (DiskWorld.fwriteNew env f after o k) ∧
      ((DiskWorld.fwriteNew env f after o k).stream k).isSome = true := by
  obtain ⟨content, hkeeps, hbase, hdirect⟩ := h
  obtain ⟨s, hs⟩ := Option.isSome_iff_exists.1 hopen
  have hall : f.of k.2 ++ (after.of k.2).drop (f.of k.2).length = after.of k.2 := by
    obtain ⟨rest, hrest⟩ := hafter
    rw [← hrest, List.drop_left]
  refine ⟨?_, OpenFiles.isSome_send hs⟩
  by_cases hk : k.2 = .runlength
  · have hsend := hkeeps.send hs ((after.of k.2).drop (f.of k.2).length) (env.bufferingOf k.2)
    rw [hall] at hsend
    exact ⟨_, hsend, hbase.trans (List.prefix_append _ _), fun hne => absurd hk hne⟩
  · have hunbuffered : env.bufferingOf k.2 = unbuffered := by
      cases hfile : k.2 with
      | log => rfl
      | index => rfl
      | runlength => exact absurd hfile hk
    have hsend := hkeeps.send_unbuffered hs ((after.of k.2).drop (f.of k.2).length)
    rw [hall, ← hunbuffered] at hsend
    obtain rfl := hdirect hk
    exact ⟨_, hsend, hbase.trans hafter, fun _ => rfl⟩

theorem Stored.fflush (h : Stored env path base f k o) (hopen : (o.stream k).isSome = true) :
    Stored env path f f k (o.fflush k) ∧ ((o.fflush k).stream k).isSome = true := by
  obtain ⟨content, hkeeps, -, -⟩ := h
  obtain ⟨s, hs⟩ := Option.isSome_iff_exists.1 hopen
  exact ⟨⟨_, hkeeps.fflush hs, List.prefix_rfl, fun _ => rfl⟩, OpenFiles.isSome_send hs⟩

theorem Stored.fclose (h : Stored env path base f k o) (hopen : (o.stream k).isSome = true) :
    Stored env path f f k (o.fclose k) ∧ ((o.fclose k).stream k).isSome = false := by
  obtain ⟨content, hkeeps, -, -⟩ := h
  obtain ⟨s, hs⟩ := Option.isSome_iff_exists.1 hopen
  exact ⟨⟨_, hkeeps.fclose hs, List.prefix_rfl, fun _ => rfl⟩, by rw [o.stream_fclose]; rfl⟩

omit [DecidableEq φ] in
/-- What is not stored, or not yet, begins with what is. -/
theorem Stored.base_isPrefix (h : Stored env path base f k o) : base.of k.2 <+: f.of k.2 := by
  obtain ⟨content, hkeeps, hbase, -⟩ := h
  refine hbase.trans ?_
  cases hs : o.stream k with
  | none => rw [hkeeps.closed hs]
  | some s => exact ⟨s.pending, (hkeeps.own s hs).2.2⟩

end Stored

/-! ## The constructor -/

namespace Env

variable {φ : Type} [DecidableEq φ] {env : Env φ} {l : Nat} {path : List UInt8}
  {ks : List PackerFile} {o o' : OpenFiles (Nat × PackerFile) φ UInt8} {opened : Bool}

/-- Opening files changes these files only. -/
theorem disk_openAll (h : env.openAll l path ks o = (o', opened)) {file : φ}
    (hfile : ∀ k ∈ ks, env.file (k.path path) ≠ file) : o'.disk file = o.disk file := by
  induction ks generalizing o with
  | nil =>
    obtain ⟨rfl, -⟩ := Prod.mk.inj h
    rfl
  | cons k ks ih =>
    unfold openAll at h
    split at h
    · obtain ⟨rfl, -⟩ := Prod.mk.inj h
      rfl
    · rw [ih h (fun k' hk' => hfile k' (List.mem_cons_of_mem _ hk'))]
      exact Function.update_of_ne (hfile k List.mem_cons_self).symm _ _

/-- A file that is left to another stream stays so, unless it is among those that are opened. -/
theorem keeps_of_openAll (h : env.openAll l path ks o = (o', opened)) {key : Nat × PackerFile}
    (hkey : ∀ k ∈ ks, (l, k) ≠ key) {file : φ} (hfile : ∀ k ∈ ks, env.file (k.path path) ≠ file)
    {content written : List UInt8} (hkeeps : o.Keeps key file content written) :
    o'.Keeps key file content written ∧ o'.stream key = o.stream key := by
  induction ks generalizing o with
  | nil =>
    obtain ⟨rfl, -⟩ := Prod.mk.inj h
    exact ⟨hkeeps, rfl⟩
  | cons k ks ih =>
    unfold openAll at h
    split at h
    · obtain ⟨rfl, -⟩ := Prod.mk.inj h
      exact ⟨hkeeps, rfl⟩
    · obtain ⟨hkept, hstream⟩ := ih h (fun k' hk' => hkey k' (List.mem_cons_of_mem _ hk'))
        (fun k' hk' => hfile k' (List.mem_cons_of_mem _ hk'))
        (hkeeps.fopen_of_ne (hkey k List.mem_cons_self) (hfile k List.mem_cons_self))
      exact ⟨hkept, hstream.trans
        (Function.update_of_ne (hkey k List.mem_cons_self).symm _ _)⟩

/-- The files that were opened are empty and left to their streams, if no stream was open on them
    before. -/
theorem keeps_openAll (hinj : Function.Injective fun k : PackerFile => env.file (k.path path))
    (hnodup : ks.Nodup) (h : env.openAll l path ks o = (o', true))
    (halone : ∀ k ∈ ks, ∀ key s, o.stream key = some s → s.file ≠ env.file (k.path path)) :
    ∀ k ∈ ks, o'.Keeps (l, k) (env.file (k.path path)) [] [] ∧
      (o'.stream (l, k)).isSome = true := by
  induction ks generalizing o with
  | nil => exact fun k hk => absurd hk List.not_mem_nil
  | cons k ks ih =>
    obtain ⟨hk, hks⟩ := List.nodup_cons.1 hnodup
    unfold openAll at h
    split at h
    · exact absurd (Prod.mk.inj h).2 (by simp)
    · intro k' hk'
      rcases List.mem_cons.1 hk' with rfl | hk'
      · -- opened first, and the files opened after it are others
        have hopened : (o.fopen (l, k') (env.file (k'.path path))).Keeps (l, k')
            (env.file (k'.path path)) [] [] := OpenFiles.keeps_fopen
          (fun key s hs hfile => absurd hfile (halone k' List.mem_cons_self key s hs))
        have hothers : ∀ k₁ ∈ ks, k₁ ≠ k' := fun k₁ hk₁ heq => hk (heq ▸ hk₁)
        obtain ⟨hkept, hstream⟩ := keeps_of_openAll h
          (fun k₁ hk₁ heq => hothers k₁ hk₁ (Prod.mk.inj heq).2)
          (fun k₁ hk₁ heq => hothers k₁ hk₁ (hinj heq)) hopened
        exact ⟨hkept, by rw [hstream, OpenFiles.stream_fopen]; rfl⟩
      · refine ih hks h (fun k₁ hk₁ key s hs => ?_) k' hk'
        by_cases hkey : key = (l, k)
        · subst hkey
          obtain rfl := Option.some.inj ((o.stream_fopen (l, k) _).symm.trans hs)
          intro heq
          obtain rfl := hinj heq
          exact hk hk₁
        · exact halone k₁ (List.mem_cons_of_mem _ hk₁) key s
            ((OpenFiles.stream_fopen_of_ne hkey o _).symm.trans hs)

theorem openAll_snd : (env.openAll l path ks o).2
    = ks.all fun k => !env.cannotOpen (k.path path) := by
  induction ks generalizing o with
  | nil => rfl
  | cons k ks ih =>
    unfold openAll
    rw [List.all_cons]
    split
    · next h =>
      rw [h]
      rfl
    · next h =>
      rw [Bool.not_eq_true] at h
      rw [ih, h]
      rfl

/-- The constructor returns if every file can be opened, and then it has opened them all. -/
theorem construct_of_opens (h : env.opens path = true) :
    env.construct o l path = (env.openAll l path [.log, .index, .runlength] o) ∧
      (env.openAll l path [.log, .index, .runlength] o).2 = true := by
  have hall : (env.openAll l path [.log, .index, .runlength] o).2 = true := openAll_snd.trans h
  refine ⟨?_, hall⟩
  unfold construct
  split
  · next o' hopen => exact hopen.symm
  · next o' hopen => exact absurd (hopen ▸ hall) (by simp)

theorem construct_of_not_opens (h : env.opens path = false) :
    env.construct o l path
      = ({ (env.openAll l path [.log, .index, .runlength] o).1 with stream := o.stream },
          false) := by
  have hall : (env.openAll l path [.log, .index, .runlength] o).2 = false := openAll_snd.trans h
  unfold construct
  split
  · next o' hopen => exact absurd (hopen ▸ hall) (by simp)
  · next o' hopen => rw [hopen]

end Env

/-! ## A logger that has its files to itself -/

theorem mem_streamsOf {l : Nat} {k : Nat × PackerFile} : k ∈ streamsOf l ↔ k.1 = l := by
  obtain ⟨l', file⟩ := k
  cases file <;> simp [streamsOf]

namespace DiskWorld

variable {S φ : Type} [DecidableEq S] [DecidableEq φ] {n m r : Nat}

/-- Logger `l` is stored in its files, and these have at least `base`; its streams are open as long
    as it is alive. -/
structure Holds (env : Env φ) (w : DiskWorld S φ n m r) (l : Nat) (path : List UInt8)
    (base : Files) : Prop where
  constructed : l < w.world.loggers.length
  stored : ∀ file, Stored env path base (w.world.logger l).packer.files (l, file) w.files
  opened : ∀ file, (w.files.stream (l, file)).isSome = true ↔ w.world.Alive l

variable {env : Env φ} {sites : S → CallSite} {w w' : DiskWorld S φ n m r} {l l' : Nat}
  {path : List UInt8} {base : Files} {action : WorldAction S} {alive : Bool}
  {f : Logger (Packer n m r) → Except Fault (Statics S × Logger (Packer n m r))}
  {finish : OpenFiles (Nat × PackerFile) φ UInt8 → Nat × PackerFile →
    OpenFiles (Nat × PackerFile) φ UInt8}

omit [DecidableEq S] [DecidableEq φ] in
/-- What is on disk lies between `base` and what the packer has handed over. -/
theorem Holds.content (h : w.Holds env l path base) (file : PackerFile) :
    ∃ content, w.files.disk (env.file (file.path path)) = some content ∧
      base.of file <+: content ∧ content <+: (w.world.logger l).packer.files.of file ∧
      (file ≠ .runlength ∨ ¬ w.world.Alive l →
        content = (w.world.logger l).packer.files.of file) := by
  obtain ⟨content, hkeeps, hbase, hdirect⟩ := h.stored file
  refine ⟨content, hkeeps.disk, hbase, ?_, ?_⟩
  · cases hs : w.files.stream (l, file) with
    | none => rw [hkeeps.closed hs]
    | some s => exact ⟨s.pending, (hkeeps.own s hs).2.2⟩
  · rintro (hfile | hdead)
    · exact hdirect hfile
    · refine hkeeps.closed (Option.not_isSome_iff_eq_none.1 (fun hopen => hdead ?_))
      exact (h.opened file).1 hopen

omit [DecidableEq S] [DecidableEq φ] in
theorem Holds.of_base {base' : Files} (h : w.Holds env l path base)
    (hbase : ∀ file, base'.of file <+: base.of file) : w.Holds env l path base' :=
  { h with stored := fun file => (h.stored file).of_base (hbase file) }

/-- A member call of another logger. -/
theorem Holds.member_of_ne (h : w.Holds env l path base) (hne : l' ≠ l)
    (huse : w.world.step sites action = w.world.use l' alive f)
    (honly : ∀ o k, OpenFiles.OnlyAt k o (finish o k))
    (hmember : w.member env sites l' action finish = .ok w') : w'.Holds env l path base := by
  simp only [member, bind_eq_ok, Except.ok.injEq] at hmember
  obtain ⟨world, hstep, rfl⟩ := hmember
  rw [huse] at hstep
  obtain ⟨-, -, -, -, -, hlogger⟩ := World.use_eq_ok hstep
  obtain ⟨-, hlength, -, halive⟩ := World.alive_of_use hstep
  have hframe (file : PackerFile) (opened : Bool)
      (hopened : (w.files.stream (l, file)).isSome = opened) := by
    have hnotMem : (l, file) ∉ streamsOf l' := fun hmem => hne (mem_streamsOf.1 hmem).symm
    exact (framed_stored opened).foldl_of_notMem honly hnotMem
      ((framed_stored opened).foldl_of_notMem (fun o k => OpenFiles.onlyAt_send o k _ _) hnotMem
        (o := w.files) (f := fwriteNew env (w.world.logger l').packer.files
          (world.logger l').packer.files) ⟨h.stored file, hopened⟩)
  refine ⟨hlength ▸ h.constructed, fun file => ?_, fun file => ?_⟩
  · rw [hlogger l hne.symm]
    exact (hframe file _ rfl).1
  · rw [halive l hne.symm, ← h.opened file, (hframe file _ rfl).2]

/-- A member call of the logger itself. -/
theorem Holds.member_self (h : w.Holds env l path base)
    (huse : w.world.step sites action = w.world.use l alive f)
    (honly : ∀ o k, OpenFiles.OnlyAt k o (finish o k)) (base' : Files → Files)
    (hfinish : ∀ after o k, Stored env path base after k o → (o.stream k).isSome = true →
      Stored env path (base' after) after k (finish o k) ∧
        ((finish o k).stream k).isSome = alive)
    (hmember : w.member env sites l action finish = .ok w') :
    w'.Holds env l path (base' (w'.world.logger l).packer.files) := by
  simp only [member, bind_eq_ok, Except.ok.injEq] at hmember
  obtain ⟨world, hstep, rfl⟩ := hmember
  obtain ⟨ops, hops⟩ := World.exists_run_of_step hstep l
  rw [huse] at hstep
  obtain ⟨hbefore, hlength, halive, -⟩ := World.alive_of_use hstep
  have hgrow := Packer.startsWith_of_run hops
  have hafter : ∀ file, (w.world.logger l).packer.files.of file
      <+: (world.logger l).packer.files.of file := by
    intro file
    cases file with
    | log => exact hgrow.log
    | index => exact hgrow.index
    | runlength => exact hgrow.runlength
  have hnodup : (streamsOf l).Nodup := by simp [streamsOf]
  -- first the new bytes are written, then each stream is finished
  have hstored : ∀ k ∈ streamsOf l,
      Stored env path base (w.world.logger l).packer.files k w.files ∧
        (w.files.stream k).isSome = true := fun k hk => by
    obtain rfl := mem_streamsOf.1 hk
    exact ⟨h.stored k.2, (h.opened k.2).2 hbefore⟩
  have hwritten := (framed_stored true).foldl (framed_stored true)
    (f := fwriteNew env (w.world.logger l).packer.files (world.logger l).packer.files)
    (fun o k => OpenFiles.onlyAt_send o k _ _)
    (fun o k _ hk => hk.1.fwriteNew (hafter k.2) hk.2) hnodup hstored
  have hfinished := (framed_stored true).foldl (framed_stored alive) honly
    (fun o k _ hk => hfinish _ o k hk.1 hk.2) hnodup hwritten
  refine ⟨hlength ▸ h.constructed, fun file => ?_, fun file => ?_⟩
  · exact (hfinished (l, file) (mem_streamsOf.2 rfl)).1
  · rw [halive, (hfinished (l, file) (mem_streamsOf.2 rfl)).2]

omit [DecidableEq φ] in
theorem onlyAt_self (o : OpenFiles (Nat × PackerFile) φ UInt8) (k : Nat × PackerFile) :
    OpenFiles.OnlyAt k o o :=
  ⟨fun _ _ => rfl, fun _ _ => rfl, fun s hs => ⟨s, hs, rfl⟩⟩

/-- A flush of the logger brings everything to its files. -/
theorem Holds.flush (h : w.Holds env l path base)
    (hstep : w.step env sites (.flush l) = .ok w') :
    w'.Holds env l path (w'.world.logger l).packer.files :=
  h.member_self rfl (fun o k => OpenFiles.onlyAt_send o k [] unbuffered) (fun after => after)
    (fun _ _ _ hstored hopen => hstored.fflush hopen) hstep

theorem step_create (hopens : env.opens path = true)
    (hstep : w.step env sites (.create path) = .ok w') :
    ∃ files, env.openAll w.world.loggers.length path [.log, .index, .runlength] w.files
        = (files, true) ∧
      w' = ⟨{ w.world with loggers := w.world.loggers ++ [(.fresh, true)] }, files⟩ := by
  obtain ⟨hconstruct, hall⟩ := Env.construct_of_opens (o := w.files)
    (l := w.world.loggers.length) hopens
  obtain ⟨files, hfiles⟩ : ∃ files, env.openAll w.world.loggers.length path
      [.log, .index, .runlength] w.files = (files, true) := ⟨_, Prod.ext rfl hall⟩
  rw [DiskWorld.step, hconstruct, hfiles] at hstep
  exact ⟨files, hfiles, (Except.ok.inj hstep).symm⟩

theorem step_create_fails (hopens : env.opens path = false)
    (hstep : w.step env sites (.create path) = .ok w') :
    ∃ files, env.openAll w.world.loggers.length path [.log, .index, .runlength] w.files
        = (files, false) ∧
      w' = { w with files := { files with stream := w.files.stream } } := by
  rw [DiskWorld.step, Env.construct_of_not_opens hopens] at hstep
  exact ⟨_, Prod.ext rfl (Env.openAll_snd.trans hopens), (Except.ok.inj hstep).symm⟩

/-- Nobody opens the files of `path` for writing any more. -/
def NotReopened (env : Env φ) (path : List UInt8) (actions : List (DiskAction S)) : Prop :=
  ∀ path', .create path' ∈ actions →
    ∀ file file' : PackerFile, env.file (file.path path') ≠ env.file (file'.path path)

/-- Whatever happens in the program, a logger stays stored in files that nobody opens again. -/
theorem Holds.step (h : w.Holds env l path base) {action : DiskAction S}
    (haction : NotReopened env path [action]) (hstep : w.step env sites action = .ok w') :
    w'.Holds env l path base := by
  have hmember {action : WorldAction S} {l' : Nat} (alive : Bool)
      {f : Logger (Packer n m r) → Except Fault (Statics S × Logger (Packer n m r))}
      {finish : OpenFiles (Nat × PackerFile) φ UInt8 → Nat × PackerFile →
        OpenFiles (Nat × PackerFile) φ UInt8}
      (huse : w.world.step sites action = w.world.use l' alive f)
      (honly : ∀ o k, OpenFiles.OnlyAt k o (finish o k))
      (hfinish : ∀ after o k, Stored env path base after k o → (o.stream k).isSome = true →
        Stored env path base after k (finish o k) ∧ ((finish o k).stream k).isSome = alive)
      (hmember : w.member env sites l' action finish = .ok w') : w'.Holds env l path base := by
    by_cases hl : l' = l
    · subst hl
      exact h.member_self huse honly (fun _ => base) hfinish hmember
    · exact h.member_of_ne hl huse honly hmember
  cases action with
  | create path' =>
    have hfile : ∀ file : PackerFile, ∀ file' ∈ [PackerFile.log, .index, .runlength],
        env.file (file'.path path') ≠ env.file (file.path path) :=
      fun file file' _ => haction path' List.mem_cons_self file' file
    cases hopens : env.opens path' with
    | true =>
      obtain ⟨files, hopen, rfl⟩ := step_create hopens hstep
      have hkey (file : PackerFile) : ∀ file' ∈ [PackerFile.log, .index, .runlength],
          (w.world.loggers.length, file') ≠ (l, file) :=
        fun file' _ heq => h.constructed.ne (Prod.mk.inj heq).1.symm
      have hlength : l < (w.world.loggers ++ [((.fresh : Logger (Packer n m r)), true)]).length :=
        Nat.lt_of_lt_of_le h.constructed (by simp)
      refine ⟨hlength, fun file => ?_, fun file => ?_⟩
      · obtain ⟨content, hkeeps, hrest⟩ := h.stored file
        rw [World.logger_create]
        exact ⟨content, (Env.keeps_of_openAll hopen (hkey file) (hfile file) hkeeps).1, hrest⟩
      · obtain ⟨content, hkeeps, -⟩ := h.stored file
        rw [(Env.keeps_of_openAll hopen (hkey file) (hfile file) hkeeps).2, h.opened file]
        simp only [World.Alive, List.getElem?_append_left h.constructed]
    | false =>
      -- the constructor throws: only the disk has changed, and not at these files
      obtain ⟨files, hopen, rfl⟩ := step_create_fails hopens hstep
      refine ⟨h.constructed, fun file => ?_, h.opened⟩
      obtain ⟨content, hkeeps, hrest⟩ := h.stored file
      refine ⟨content, ⟨?_, hkeeps.alone, hkeeps.own, hkeeps.closed⟩, hrest⟩
      exact (Env.disk_openAll hopen (hfile file)).trans hkeeps.disk
  | log l' site args =>
    exact hmember true rfl onlyAt_self (fun _ _ _ hstored hopen => ⟨hstored, hopen⟩)
      hstep
  | flush l' =>
    exact hmember true rfl (fun o k => OpenFiles.onlyAt_send o k [] unbuffered)
      (fun _ _ _ hstored hopen => ⟨(hstored.fflush hopen).1.of_base hstored.base_isPrefix,
        (hstored.fflush hopen).2⟩) hstep
  | destroy l' =>
    exact hmember false rfl OpenFiles.onlyAt_fclose
      (fun _ _ _ hstored hopen => ⟨(hstored.fclose hopen).1.of_base hstored.base_isPrefix,
        (hstored.fclose hopen).2⟩) hstep

theorem Holds.run (h : w.Holds env l path base) {actions : List (DiskAction S)}
    (hactions : NotReopened env path actions) (hrun : w.run env sites actions = .ok w') :
    w'.Holds env l path base := by
  induction actions generalizing w with
  | nil =>
    obtain rfl := Except.ok.inj hrun
    exact h
  | cons action actions ih =>
    obtain ⟨w₁, hstep, hrest⟩ := bind_eq_ok.1 hrun
    refine ih (h.step (fun path' hmem => ?_) hstep)
      (fun path' hmem => hactions path' (List.mem_cons_of_mem _ hmem)) hrest
    exact hactions path' (List.mem_singleton.1 hmem ▸ List.mem_cons_self)

/-- A logger can be constructed on `path` in state `w` with files to itself: they are three, no
    stream is open on them, and `after` does not open them again. -/
structure LeftAlone (env : Env φ) (w : DiskWorld S φ n m r) (path : List UInt8)
    (after : List (DiskAction S)) : Prop where
  opens : env.opens path = true
  separate : Function.Injective fun file : PackerFile => env.file (file.path path)
  closed : ∀ (file : PackerFile) key s, w.files.stream key = some s →
    s.file ≠ env.file (file.path path)
  later : NotReopened env path after

theorem LeftAlone.holds {after : List (DiskAction S)} (h : w.LeftAlone env path after)
    (hstep : w.step env sites (.create path) = .ok w') :
    w'.Holds env w.world.loggers.length path ⟨[], [], []⟩ := by
  obtain ⟨files, hopen, rfl⟩ := step_create h.opens hstep
  have hnew := Env.keeps_openAll h.separate (by decide) hopen (fun file _ => h.closed file)
  have hmem (file : PackerFile) : file ∈ [PackerFile.log, .index, .runlength] := by
    cases file <;> simp
  have hlast : (w.world.loggers ++ [((.fresh : Logger (Packer n m r)), true)])[
      w.world.loggers.length]? = some (.fresh, true) := by
    rw [List.getElem?_append_right le_rfl, Nat.sub_self]
    rfl
  have hlogger : World.logger { w.world with
      loggers := w.world.loggers ++ [((.fresh : Logger (Packer n m r)), true)] }
      w.world.loggers.length = .fresh := by
    rw [World.logger, hlast]
    rfl
  refine ⟨by simp, fun file => ?_, fun file => ?_⟩
  · have hempty : (Logger.fresh : Logger (Packer n m r)).packer.files.of file = [] := by
      cases file <;> rfl
    rw [hlogger]
    refine ⟨[], by rw [hempty]; exact (hnew file (hmem file)).1, ?_, fun _ => hempty.symm⟩
    cases file <;> exact List.prefix_rfl
  · exact ⟨fun _ => ⟨_, hlast⟩, fun _ => (hnew file (hmem file)).2⟩

/-- The loggers go through the steps they see. -/
theorem run_world {actions : List (DiskAction S)} (h : w.run env sites actions = .ok w') :
    w.world.run sites (worldActions env actions) = .ok w'.world := by
  induction actions generalizing w with
  | nil =>
    obtain rfl := Except.ok.inj h
    rfl
  | cons action actions ih =>
    obtain ⟨w₁, hstep, hrest⟩ := bind_eq_ok.1 h
    have hmember {action : WorldAction S} {l : Nat}
        {finish : OpenFiles (Nat × PackerFile) φ UInt8 → Nat × PackerFile →
          OpenFiles (Nat × PackerFile) φ UInt8}
        (h : w.member env sites l action finish = .ok w₁) :
        w.world.run sites [action] = .ok w₁.world := by
      simp only [member, bind_eq_ok, Except.ok.injEq] at h
      obtain ⟨world, hworld, rfl⟩ := h
      rw [World.run, List.foldlM_cons, hworld]
      rfl
    have hfirst : w.world.run sites (action.world env) = .ok w₁.world := by
      cases action with
      | create path =>
        rw [DiskAction.world]
        split
        · next hopens =>
          obtain ⟨files, -, rfl⟩ := step_create hopens hstep
          rfl
        · next hopens =>
          obtain ⟨files, -, rfl⟩ := step_create_fails (Bool.eq_false_of_not_eq_true hopens) hstep
          rfl
      | log l site args => exact hmember hstep
      | flush l => exact hmember hstep
      | destroy l => exact hmember hstep
    rw [worldActions, List.flatMap_cons, World.run, List.foldlM_append, ← World.run, hfirst]
    exact ih hrest

end DiskWorld

end BinaryLog
