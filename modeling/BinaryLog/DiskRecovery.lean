import BinaryLog.DiskLoggers
import BinaryLog.RoundTrip

set_option autoImplicit false

/-! # From the program to the unpacker by way of the disk

As long as nobody else writes the files of a logger, they have what its packer has written
(`files_on_disk`), what it has flushed stays there (`flush_on_disk`), and once it is destroyed the
unpacker prints its calls under the conditions of the format, provided there are any: an empty file
cannot be mapped (`unpackerMain_iff`). -/

namespace BinaryLog

open Simulation Runs

/-! ## The files on disk -/

section Disk

variable {S φ : Type} [DecidableEq S] [DecidableEq φ] {n m r : Nat} {env : Env φ}
  {sites : S → CallSite} {path : List UInt8}

/-- Whatever the program does with its other loggers: the log and the index of a logger that is left
    alone with its files have on disk exactly what its packer has written, the runlength file begins
    it, and after the destruction it is complete, too. -/
theorem files_on_disk {w₁ w : DiskWorld S φ n m r} {after : List (DiskAction S)}
    (halone : w₁.LeftAlone env path after)
    (hrun : w₁.run env sites (.create path :: after) = .ok w) (file : PackerFile) :
    ∃ content, w.files.disk (env.file (file.path path)) = some content ∧
      content <+: (w.world.logger w₁.world.loggers.length).packer.files.of file ∧
      (file ≠ .runlength ∨ ¬ w.world.Alive w₁.world.loggers.length →
        content = (w.world.logger w₁.world.loggers.length).packer.files.of file) := by
  obtain ⟨w₂, hcreate, hafter⟩ := bind_eq_ok.1 hrun
  obtain ⟨content, hdisk, -, hprefix, hexact⟩ :=
    ((halone.holds hcreate).run halone.later hafter).content file
  exact ⟨content, hdisk, hprefix, hexact⟩

end Disk

/-- Every name is a file of its own, and `stdio` keeps back what it can. -/
def plainEnv : Env (List UInt8) := ⟨fun path => path, fun _ => false, fun _ => 0⟩

/-- An empty disk. -/
def emptyDisk : DiskWorld Bool (List UInt8) 1 2 10 := .start fun _ => none

/-- A logger on `a`, just constructed, is used twice while there is one on `b`. -/
def besideB (actions : List (DiskAction Bool)) : List (DiskAction Bool) :=
  .log 0 true [] :: .create [98] :: .log 1 false [] :: .log 0 true [] :: actions

theorem leftAlone_besideB (actions : List (DiskAction Bool))
    (h : ∀ path, .create path ∉ actions) :
    emptyDisk.LeftAlone plainEnv [97] (besideB actions) where
  opens := by decide
  separate := PackerFile.path_injective [97]
  closed := fun _ _ _ hs => absurd hs (by simp [emptyDisk, DiskWorld.start])
  later := by
    intro path' hmem
    simp only [besideB, List.mem_cons, reduceCtorEq, DiskAction.create.injEq, h, or_false,
      false_or] at hmem
    subst hmem
    intro file file'
    cases file <;> cases file' <;> decide

/-- One of the two, still alive: its log is on disk. -/
theorem files_on_disk_two :
    ∃ w, emptyDisk.run plainEnv plainSites (.create [97] :: besideB [.log 1 false []]) = .ok w ∧
      ∃ content, w.files.disk [97] = some content ∧
        content = (w.world.logger 0).packer.files.log := by
  obtain ⟨w, hw⟩ : ∃ w, emptyDisk.run plainEnv plainSites
      (.create [97] :: besideB [.log 1 false []]) = .ok w := ⟨_, rfl⟩
  obtain ⟨content, hcontent, -, hlog⟩ :=
    files_on_disk (leftAlone_besideB [.log 1 false []] (by simp)) hw .log
  exact ⟨w, hw, content, hcontent, hlog (.inl (by decide))⟩

section Disk

variable {S φ : Type} [DecidableEq S] [DecidableEq φ] {n m r : Nat} {env : Env φ}
  {sites : S → CallSite} {path : List UInt8}

/-- The member calls on logger `l` in a program. -/
def callsOn (env : Env φ) (sites : S → CallSite) (l : Nat) (actions : List (DiskAction S)) :
    List Op :=
  sessionCalls (fun s => (sites s).formatString) (actionsOn l (worldActions env actions))

omit [DecidableEq S] [DecidableEq φ] in
theorem log_mem_worldActions {l : Nat} {site : S} {args : List Arg}
    {actions : List (DiskAction S)} :
    .log l site args ∈ worldActions env actions ↔ .log l site args ∈ actions := by
  rw [worldActions, List.mem_flatMap]
  constructor
  · rintro ⟨action, hmem, hlog⟩
    cases action with
    | create path =>
      rw [DiskAction.world] at hlog
      split at hlog <;> exact absurd hlog (by simp)
    | log l' site' args' =>
      obtain ⟨rfl, rfl, rfl⟩ := WorldAction.log.inj (List.mem_singleton.1 hlog)
      exact hmem
    | flush l' => exact absurd hlog (by simp [DiskAction.world])
    | destroy l' => exact absurd hlog (by simp [DiskAction.world])
  · exact fun hmem => ⟨_, hmem, List.mem_singleton_self _⟩

/-- In a program in which every call site stays with one logger, a logger goes through its member
    calls. -/
theorem run_callsOn {disk : Disk φ UInt8} {w : DiskWorld S φ n m r}
    {actions : List (DiskAction S)} (hone : OneLogger (worldActions env actions))
    (hrun : (DiskWorld.start disk).run env sites actions = .ok w) (l : Nat) :
    Logger.run .fresh (callsOn env sites l actions) = .ok (w.world.logger l) := by
  obtain ⟨owner, howner⟩ := hone.exists_owner
  exact World.run_logger howner (DiskWorld.run_world hrun) l

/-- The files of a destroyed logger are the final files of its member calls. -/
theorem files_of_destroyed (hr : 10 ≤ r) {disk : Disk φ UInt8} {w : DiskWorld S φ n m r}
    {actions : List (DiskAction S)} (hone : OneLogger (worldActions env actions))
    (hrun : (DiskWorld.start disk).run env sites actions = .ok w) {l : Nat}
    (hl : l < w.world.loggers.length) (hdead : ¬ w.world.Alive l) :
    (w.world.logger l).packer.files = finalFiles (callsOn env sites l actions) := by
  obtain ⟨pre, hpre⟩ := World.actionsOn_of_destroyed (DiskWorld.run_world hrun) hl hdead
  have hcalls : callsOn env sites l actions
      = (sessionCalls (fun s => (sites s).formatString) pre ++ [.flush]) ++ [.flush] := by
    rw [callsOn, hpre, sessionCalls, memberCalls_append, List.append_assoc]
    rfl
  have hlogger := run_callsOn hone hrun l
  rw [hcalls] at hlogger ⊢
  rw [Packer.files_of_run_flush hr hlogger, ← finalFiles_concat_flush]

/-- In a program that uses every call site with one logger only up to a flush: what the logger has
    logged before the flush is on disk from then on, however `stdio` buffers and whatever the program
    does, also where it stops without destructors. -/
theorem flush_on_disk (hr : 10 ≤ r) (before mid after : List (DiskAction S))
    {disk : Disk φ UInt8} {w₁ w : DiskWorld S φ n m r}
    (hone : OneLogger (worldActions env (before ++ .create path :: mid)))
    (hbefore : (DiskWorld.start disk).run env sites before = .ok w₁)
    (halone : w₁.LeftAlone env path (mid ++ .flush w₁.world.loggers.length :: after))
    (hrun : w₁.run env sites (.create path :: (mid ++ .flush w₁.world.loggers.length :: after))
      = .ok w) (file : PackerFile) :
    ∃ content, w.files.disk (env.file (file.path path)) = some content ∧
      (finalFiles (callsOn env sites w₁.world.loggers.length
        (before ++ .create path :: mid))).of file <+: content := by
  have hlater : DiskWorld.NotReopened env path mid ∧ DiskWorld.NotReopened env path after :=
    ⟨fun path' hmem => halone.later path' (List.mem_append_left _ hmem),
      fun path' hmem => halone.later path'
        (List.mem_append_right _ (List.mem_cons_of_mem _ hmem))⟩
  obtain ⟨w₂, hcreate, hrest⟩ := bind_eq_ok.1 hrun
  rw [← DiskWorld.run, DiskWorld.run, List.foldlM_append, bind_eq_ok] at hrest
  obtain ⟨w₃, hmid, hrest⟩ := hrest
  obtain ⟨w₄, hflush, hafter⟩ := bind_eq_ok.1 hrest
  -- at the flush the files are those of the calls so far
  have hflushed : (w₄.world.logger w₁.world.loggers.length).packer.files
      = finalFiles (callsOn env sites w₁.world.loggers.length (before ++ .create path :: mid)) := by
    have hprefix : (DiskWorld.start disk).run env sites
        ((before ++ .create path :: mid) ++ [.flush w₁.world.loggers.length]) = .ok w₄ := by
      rw [DiskWorld.run, List.foldlM_append, List.foldlM_append, ← DiskWorld.run, hbefore, ok_bind,
        List.foldlM_cons, hcreate, ok_bind, hmid, ok_bind, List.foldlM_cons, hflush]
      rfl
    have hcalls : callsOn env sites w₁.world.loggers.length
        ((before ++ .create path :: mid) ++ [.flush w₁.world.loggers.length])
        = callsOn env sites w₁.world.loggers.length (before ++ .create path :: mid)
          ++ [.flush] := by
      simp only [callsOn, worldActions, actionsOn, List.flatMap_append, List.flatMap_singleton,
        DiskAction.world, WorldAction.on, if_true, sessionCalls, memberCalls_append, memberCalls]
    refine Packer.files_of_run_flush hr ?_
    rw [← hcalls]
    refine run_callsOn ?_ hprefix _
    -- a flush is no use of a call site
    intro l l' site args args' hmem hmem'
    rw [log_mem_worldActions, List.mem_append, List.mem_singleton, or_iff_left (by simp)]
      at hmem hmem'
    exact hone l l' site args args' (log_mem_worldActions.2 hmem) (log_mem_worldActions.2 hmem')
  have hholds := (((halone.holds hcreate).run hlater.1 hmid).flush hflush).run hlater.2 hafter
  obtain ⟨content, hdisk, hbase, -⟩ := hholds.content file
  exact ⟨content, hdisk, hflushed ▸ hbase⟩

end Disk

/-! ## The unpacker -/

namespace Env

variable {φ : Type} (env : Env φ)

/-- `mio::mmap_source(path)`: no name, no file and an empty file are errors. -/
def mmapSource (disk : Disk φ UInt8) (path : List UInt8) : Option (List UInt8) :=
  if path = [] then none else (disk (env.file path)).filter (· ≠ [])

/-- `main` of the unpacker: a runlength file that cannot be mapped counts as empty. -/
def unpackerMain (disk : Disk φ UInt8) (logFilePath : List UInt8) :
    Option (List LogEntry × List UInt8) := do
  let indexFile ← env.mmapSource disk (logFilePath ++ indexSuffix)
  let indexEntries ← parse indexFile
  let logFile ← env.mmapSource disk logFilePath
  let runlengthFile := (env.mmapSource disk (logFilePath ++ runlengthSuffix)).getD []
  parseAndPrint indexEntries logFile runlengthFile

variable {env}

theorem mmapSource_of_disk {disk : Disk φ UInt8} {path content : List UInt8}
    (hpath : path ≠ []) (h : disk (env.file path) = some content) :
    env.mmapSource disk path = if content = [] then none else some content := by
  rw [mmapSource, if_neg hpath, h]
  by_cases hempty : content = [] <;> simp [hempty]

end Env

section Disk

variable {S φ : Type} [DecidableEq S] [DecidableEq φ] {n m r : Nat} {env : Env φ}
  {sites : S → CallSite} {path : List UInt8}

/-- Something has been called exactly if there is something in the log. -/
theorem finalFiles_log_eq_nil_iff (ops : List Op) :
    (finalFiles ops).log = [] ↔ calls ops = [] := by
  show (entries .initial (callEvents ops)).flatten = [] ↔ items (callEvents ops) = []
  induction callEvents ops with
  | nil => exact iff_of_true rfl rfl
  | cons e es ih =>
    cases e with
    | mark => exact ih
    | item c =>
      have hheader : (RunState.initial.header c.index).length = 2 := by
        rw [RunState.header, if_neg, length_headerBytes]
        unfold RunState.Suppresses
        split
        · exact fun h => h rfl
        · next hzero => exact fun h => hzero ⟨rfl, h.symm⟩
      refine iff_of_false (fun h => ?_) (by simp [items])
      have hlength := congrArg List.length h
      rw [entries, RunState.entryBytes, List.flatten_cons, List.length_append, List.length_append,
        hheader, List.length_nil] at hlength
      omega

/-- In a program that uses every call site with one logger only: the unpacker on the name of a
    destroyed logger prints the calls of this logger, and only these, if and only if there are any
    and the format tells them apart, whatever the other loggers of the program have done. -/
theorem unpackerMain_iff (hr : 10 ≤ r) (before after : List (DiskAction S))
    {disk : Disk φ UInt8} {w₁ w : DiskWorld S φ n m r} {ops : List Op}
    (hone : OneLogger (worldActions env (before ++ .create path :: after)))
    (hbefore : (DiskWorld.start disk).run env sites before = .ok w₁)
    (halone : w₁.LeftAlone env path after)
    (hrun : w₁.run env sites (.create path :: after) = .ok w)
    (hdead : ¬ w.world.Alive w₁.world.loggers.length)
    (hops : callsOn env sites w₁.world.loggers.length (before ++ .create path :: after) = ops)
    (h : WellTyped ops) :
    (∃ rest, env.unpackerMain w.files.disk path
      = some ((calls ops).map (Call.printed (rowTable ops)), rest)) ↔
    calls ops ≠ [] ∧ Legible .initial (callEvents ops) ∧
      Unambiguous ((pieces (callEvents ops)).map (List.map Call.index)) := by
  have hwhole : (DiskWorld.start disk).run env sites (before ++ .create path :: after) = .ok w := by
    rw [DiskWorld.run, List.foldlM_append, ← DiskWorld.run, hbefore]
    exact hrun
  obtain ⟨w₂, hcreate, hafter⟩ := bind_eq_ok.1 hrun
  have hholds := (halone.holds hcreate).run halone.later hafter
  have hfiles := files_of_destroyed hr hone hwhole hholds.constructed hdead
  rw [hops] at hfiles
  have hdisk (file : PackerFile) :
      w.files.disk (env.file (path ++ file.suffix)) = some ((finalFiles ops).of file) := by
    obtain ⟨content, hcontent, -, -, heq⟩ := hholds.content file
    rw [← PackerFile.path_eq, hcontent, heq (.inr hdead), hfiles]
  have hpath : path ≠ [] := by
    rintro rfl
    have hopens := halone.opens
    exact absurd hopens (by simp [Env.opens, PackerFile.path, getLogPath, Env.cannotOpen])
  have hmapped (file : PackerFile) : env.mmapSource w.files.disk (path ++ file.suffix)
      = if (finalFiles ops).of file = [] then none else some ((finalFiles ops).of file) :=
    env.mmapSource_of_disk (fun hnil => hpath (List.append_eq_nil_iff.1 hnil).1) (hdisk file)
  have hindex : env.mmapSource w.files.disk (path ++ indexSuffix)
      = if (finalFiles ops).index = [] then none else some (finalFiles ops).index := hmapped .index
  have hlog : env.mmapSource w.files.disk path
      = if (finalFiles ops).log = [] then none else some (finalFiles ops).log := by
    have hname := hmapped .log
    rw [PackerFile.suffix, List.append_nil] at hname
    exact hname
  have hrunlength : (env.mmapSource w.files.disk (path ++ runlengthSuffix)).getD []
      = (finalFiles ops).runlength := by
    refine (congrArg (fun file => file.getD []) (hmapped .runlength)).trans ?_
    split
    · next hempty => exact hempty.symm
    · rfl
  by_cases hcalls : calls ops = []
  · -- the log is empty, and there is nothing to map
    rw [if_pos ((finalFiles_log_eq_nil_iff ops).2 hcalls)] at hlog
    refine iff_of_false ?_ (fun hall => hall.1 hcalls)
    rintro ⟨rest, hprint⟩
    simp [Env.unpackerMain, hlog] at hprint
  · have hrows : (finalFiles ops).index ≠ [] := by
      intro hempty
      obtain ⟨c, hc⟩ := List.exists_mem_of_ne_nil _ hcalls
      obtain ⟨reg, hreg, -⟩ := h.calls c hc
      have hparse := h.parse_index
      rw [hempty] at hparse
      have htable : [] = rowTable ops := Option.some.inj hparse
      rw [rowTable, eq_comm, List.map_eq_nil_iff] at htable
      rw [htable] at hreg
      exact absurd hreg (by simp)
    rw [if_neg (fun hnil => hcalls ((finalFiles_log_eq_nil_iff ops).1 hnil))] at hlog
    rw [if_neg hrows] at hindex
    have hmain : env.unpackerMain w.files.disk path = (finalFiles ops).unpack := by
      simp only [Env.unpackerMain, hindex, hlog, hrunlength, Option.bind_eq_bind, Option.bind_some]
      rfl
    rw [hmain, ← recover_finalFiles_iff h, Files.Recover]
    exact ⟨fun hprint => ⟨hcalls, h.parse_index, hprint⟩, fun hall => hall.2.2⟩

end Disk

theorem oneLogger_besideB (actions : List (DiskAction Bool))
    (h : ∀ l site args, .log l site args ∈ actions → l = if site then 0 else 1) :
    OneLogger (worldActions plainEnv ([] ++ .create [97] :: besideB actions)) := by
  have howner : ∀ l site args, .log l site args ∈ besideB actions →
      l = if site then 0 else 1 := by
    intro l site args hmem
    simp only [besideB, List.mem_cons, reduceCtorEq, false_or, DiskAction.log.injEq] at hmem
    rcases hmem with ⟨rfl, rfl, -⟩ | ⟨rfl, rfl, -⟩ | ⟨rfl, rfl, -⟩ | hmem
    · rfl
    · rfl
    · rfl
    · exact h l site args hmem
  intro l l' site args args' hmem hmem'
  rw [log_mem_worldActions, List.nil_append, List.mem_cons, or_iff_right (by simp)] at hmem hmem'
  exact (howner l site args hmem).trans (howner l' site args' hmem').symm

/-- Two calls, a flush, and more calls of both loggers: the record of the two is on disk. -/
theorem flush_on_disk_two :
    ∃ w, emptyDisk.run plainEnv plainSites
        (.create [97] :: besideB [.flush 0, .log 1 false [], .log 0 true []]) = .ok w ∧
      ∃ content, w.files.disk (getRunlengthPath [97]) = some content ∧
        recordBytes (0, 2) <+: content := by
  obtain ⟨w, hw⟩ : ∃ w, emptyDisk.run plainEnv plainSites
      (.create [97] :: besideB [.flush 0, .log 1 false [], .log 0 true []]) = .ok w := ⟨_, rfl⟩
  obtain ⟨content, hcontent, hprefix⟩ := flush_on_disk (by decide) [] (besideB [])
    [.log 1 false [], .log 0 true []] (oneLogger_besideB [] (by simp)) rfl
    (leftAlone_besideB [.flush 0, .log 1 false [], .log 0 true []] (by simp)) hw .runlength
  exact ⟨w, hw, content, hcontent, hprefix⟩

/-- The first of two loggers has been destroyed: the unpacker prints its two calls. -/
theorem unpackerMain_two :
    ∃ w, emptyDisk.run plainEnv plainSites
        (.create [97] :: besideB [.destroy 0, .log 1 false []]) = .ok w ∧
      ∃ rest, plainEnv.unpackerMain w.files.disk [97]
        = some ([⟨0, [65], []⟩, ⟨0, [65], []⟩], rest) := by
  obtain ⟨w, hw⟩ : ∃ w, emptyDisk.run plainEnv plainSites
      (.create [97] :: besideB [.destroy 0, .log 1 false []]) = .ok w := ⟨_, rfl⟩
  have hflags : (emptyDisk.run plainEnv plainSites
      (.create [97] :: besideB [.destroy 0, .log 1 false []])).toOption.map
        (fun w => w.world.loggers.map Prod.snd) = some [false, true] := rfl
  rw [hw, Except.toOption, Option.map_some, Option.some.injEq] at hflags
  have hdead : ¬ w.world.Alive 0 := by
    rintro ⟨lg, hlg⟩
    have hflag := congrArg (·[0]?) hflags
    simp [hlg] at hflag
  have hone := oneLogger_besideB [.destroy 0, .log 1 false []] (by simp)
  have hlegible : Legible .initial (callEvents [.logIndex (.literal [65]) [], .log 0 [],
      .log 0 [], .flush, .flush]) := (legible_iff _).2 ⟨by decide, by decide⟩
  have hprint := (unpackerMain_iff (by decide) [] (besideB [.destroy 0, .log 1 false []]) hone rfl
    (leftAlone_besideB [.destroy 0, .log 1 false []] (by simp)) hw hdead rfl
    (by decide)).2 ⟨by decide, hlegible, by decide⟩
  exact ⟨w, hw, hprint⟩

end BinaryLog
