import Zatch.Startup
/-!
# Commands — `start`, `clear`, `rm` and `rm -a` on the session directory (`main.rs`, `session.rs`)

What a command does to files is a list of acts, each done in the state that the acts before it leave; which acts it does
it decides as the source does, from what it finds.  `rm -a` goes twice through the directory, whose entries come in
whatever order `read_dir` gives them.
-/
namespace Zatch

open Machine (run)

/-- `Path::to_str`. -/
def toStr (s : OsStr) : Option Str :=
  s.mapM (fun | .chr c => some c | .bad _ => none)

def toStringLossy (s : OsStr) : Str :=
  s.map (fun | .chr c => c | .bad _ => '\uFFFD')

/-- `Path::join` of a directory's entry. -/
def joinEntry (dir : Str) (entry : OsStr) : OsStr := os (join dir []) ++ entry

/-- A file's name before and after its last dot; a name that begins with it has no second part. -/
def rsplitFileAtDot (name : OsStr) : OsStr × Option OsStr :=
  let after := (name.reverse.takeWhile (· ≠ .chr '.')).reverse
  let before := (name.reverse.dropWhile (· ≠ .chr '.')).tail.reverse
  if name = os "..".toList ∨ before = [] then (name, none) else (before, some after)

def extension (name : OsStr) : Option OsStr := (rsplitFileAtDot name).2

def fileStem (name : OsStr) : OsStr := (rsplitFileAtDot name).1

theorem join_eq (dir name : Str) : join dir name = join dir [] ++ name := by
  rw [join, join]
  split
  · rw [List.append_nil]
  · rw [List.append_assoc]
    rfl

theorem join_inj {dir name name' : Str} : join dir name = join dir name' ↔ name = name' := by
  rw [join_eq dir name, join_eq dir name', List.append_cancel_left_eq]

theorem logPath_join (dir name : Str) : logPath (join dir name) = join dir (name ++ ".log".toList) := by
  rw [logPath, join_eq dir name, join_eq dir (name ++ _), List.append_assoc]

theorem joinEntry_os (dir name : Str) : joinEntry dir (os name) = os (join dir name) := by
  rw [joinEntry, join_eq dir name, os, os, os, List.map_append]

theorem joinEntry_inj {dir : Str} {e e' : OsStr} : joinEntry dir e = joinEntry dir e' ↔ e = e' :=
  List.append_cancel_left_eq _ _ _ |>.to_iff

theorem toStr_eq_some : ∀ {s : OsStr} {t : Str}, toStr s = some t → s = os t
  | [], t, h => by
    rw [toStr, List.mapM_nil, Option.pure_def, Option.some_inj] at h
    rw [← h]
    rfl
  | .bad _ :: s, t, h => by
    rw [toStr, List.mapM_cons] at h
    cases h
  | .chr c :: s, t, h => by
    rw [toStr, List.mapM_cons, Option.bind_eq_bind, Option.bind_some, Option.bind_eq_bind, Option.bind_eq_some_iff] at h
    obtain ⟨t', ht', htt⟩ := h
    rw [Option.pure_def, Option.some_inj] at htt
    rw [toStr_eq_some ht', ← htt]
    rfl

theorem toStringLossy_os (s : Str) : toStringLossy (os s) = s := by
  rw [toStringLossy, os, List.map_map]
  exact List.map_id' s

theorem toStr_os : ∀ s : Str, toStr (os s) = some s
  | [] => rfl
  | c :: s => by
    rw [os, List.map_cons, toStr, List.mapM_cons, Option.bind_eq_bind, Option.bind_some, ← os, ← toStr, toStr_os s]
    rfl

/-- A session's log is an entry with the extension, and its name is the stem. -/
theorem rsplitFileAtDot_log {b : Str} (hb : b ≠ []) :
    rsplitFileAtDot (os (b ++ ".log".toList)) = (os b, some (os "log".toList)) := by
  have hrev : (os (b ++ ".log".toList)).reverse = [.chr 'g', .chr 'o', .chr 'l', .chr '.'] ++ (os b).reverse := by
    rw [os, List.map_append, List.reverse_append]
    rfl
  have hdots : os (b ++ ".log".toList) ≠ os "..".toList := by
    intro h
    have hlen := congrArg List.length (os_injective h)
    rw [List.length_append] at hlen
    exact absurd hlen (by simp)
  simp only [rsplitFileAtDot, hdots, hrev, false_or]
  simp [hb, os]

theorem extension_log {name : Str} (h : name ≠ []) : extension (os name ++ os ".log".toList) = some (os "log".toList) := by
  rw [← os_append, extension, rsplitFileAtDot_log h]

theorem mem_of_mem_fileStem {c : OsChar} {e : OsStr} (h : c ∈ fileStem e) : c ∈ e := by
  simp only [fileStem, rsplitFileAtDot] at h
  split at h
  · exact h
  · exact List.mem_reverse.1 ((List.dropWhile_sublist _).subset (List.mem_of_mem_tail (List.mem_reverse.1 h)))

/-- What a command does to files, one thing after the other. -/
inductive Act
  | listen (a : ListenAns) (path : Str)
  | openLog (path : Str) (maxSize : Nat) (a : StartAns)
  | life (x : LifeStep)
  /-- `fs::remove_file` -/
  | unlink (path : OsStr)
  /-- `remove_file_if_exists` -/
  | remove (path : OsStr) (a : RecordAns)
  /-- a file opened with `truncate`, and closed -/
  | clear (path : Str)

def Act.note (a : RecordAns) (level : LogLevel) (message : Str) : Act :=
  .life (.note { a with level, message })

variable (strerror : Errno → Str)

/-- The record of a removal that fails. -/
def failureNote (path : OsStr) (a : RecordAns) (e : FileSystem.Error) : Note :=
  { a with
    level := .warn
    message := "could not remove '".toList ++ toStringLossy path ++ "': ".toList ++ strerror (.ofFile e) }

def removeFileIfExists (appLog : Str) (fs : Fs) (path : OsStr) (a : RecordAns) : Fs :=
  match fs.unlink path with
  | (fs, .ok _) => fs
  | (fs, .error e) =>
    if e = .noEntry then fs else record appLog fs (failureNote strerror path a e)

def clearFile (fs : Fs) (path : Str) : Fs :=
  match fs.openFile false path with
  | .ok (fs, i) => fs.truncate i (fun _ => [])
  | .error _ => fs

def Act.step (appLog : Str) (l : Life) : Act → Life × List Byte
  | .listen a path => ({ l with fs := (listenUnix l.fs a path).1 }, [])
  | .openLog path maxSize a => (Zatch.openLog l.fs path maxSize a, [])
  | .life x => l.step appLog x
  | .unlink path => ({ l with fs := (l.fs.unlink path).1 }, [])
  | .remove path a => ({ l with fs := removeFileIfExists strerror appLog l.fs path a }, [])
  | .clear path => ({ l with fs := clearFile l.fs path }, [])

/-- What is left of the files. -/
def actsOn (appLog : Str) (fs : Fs) (acts : List Act) : Fs := (run (Act.step strerror appLog) ⟨fs, none⟩ acts).1.fs

/-- `cmd_start`, `cmd_new` and `cmd_run`, of which the last does not fork: `asks` is that there is a terminal to ask at
whether to attach to a session that is there.  What is recorded afterwards, by an attached client too, is `notes`. -/
def cmdStart (fs : Fs) (sess : Session) (dontfork asks : Bool) (probe : Option Trouble) (a : StartAns)
    (notes : List Note) : Fs :=
  let started :=
    if asks = true ∧ connectSocket fs probe sess.sockname = .ok () then fs
    else (sessionDaemonMain strerror fs sess dontfork a).1
  actsOn strerror sess.appLog started (notes.map (fun n => .life (.note n)))

/-- `cmd_clear`, with its exit code. -/
def cmdClear (fs : Fs) (sess : Session) (trouble : Option Errno) (a : RecordAns) : List Act × Nat :=
  let path := logPath sess.sockname
  let fails (e : Errno) : List Act × Nat :=
    if e = .enoent then ([], 0) else ([.note a .error (path ++ ": ".toList ++ strerror e)], 1)
  match trouble with
  | some e => fails e
  | none =>
    match fs.openFile false path with
    | .ok _ => ([.clear path, .note a .info ("session '".toList ++ sess.shortname ++ "' log cleared".toList)], 0)
    | .error e => fails (.ofFile e)

/-- The records of an `rm`: two of removals that fail, and what it says at its end. -/
structure RmAns where
  probe : Option Trouble
  sock : RecordAns
  log : RecordAns
  done : RecordAns

/-- `rm_single`, with its exit code. -/
def rmSingle (fs : Fs) (sess : Session) (a : RmAns) : List Act × Nat :=
  let name := sess.shortname
  let removed : Act := .note a.done .info ("session '".toList ++ name ++ "' removed".toList)
  match connectSocket fs a.probe sess.sockname with
  | .ok _ =>
    ([.note a.done .error ("session '".toList ++ name ++ "' is running (use '".toList ++ sess.progname ++
      " kill ".toList ++ name ++ "' first)".toList)], 1)
  | .error err =>
    if err = .econnrefused then ([.remove sess.sockname a.sock, .remove (logPath sess.sockname) a.log, removed], 0)
    else if err = .enoent then
      match (fs.unlink (logPath sess.sockname)).2 with
      | .ok _ => ([.unlink (logPath sess.sockname), removed], 0)
      | .error e =>
        let message :=
          if e = .noEntry then "session '".toList ++ name ++ "' does not exist".toList
          else "could not remove '".toList ++ logPath sess.sockname ++ "': ".toList ++ strerror (.ofFile e)
        ([.unlink (logPath sess.sockname), .note a.done .warn message], 1)
    else ([.note a.done .warn (sess.sockname ++ ": ".toList ++ strerror err)], 1)

/-- An entry of the directory as `rm -a` comes to it. -/
structure Visit extends RmAns where
  entry : OsStr

/-- The name of the entry, when it is a socket that `rm_stale_sockets` removes. -/
def staleName (dir : Str) (fs : Fs) (v : Visit) : Option Str :=
  let name := toStringLossy v.entry
  if extension v.entry = some (os "log".toList) then none
  else if name.head? = some '.' then none
  else
    match fs.stat (joinEntry dir v.entry) with
    | .ok kind =>
      if kind.isSocket ∧
          connectSocket fs v.probe ((toStr (joinEntry dir v.entry)).getD []) = .error .econnrefused then some name
      else none
    | .error _ => none

def staleActs (dir : Str) (v : Visit) (name : Str) : List Act :=
  [.remove (joinEntry dir v.entry) v.sock, .remove (os (join dir (name ++ ".log".toList))) v.log,
    .note v.done .info ("removed ".toList ++ name)]

/-- One entry of `rm_stale_sockets`, and the session it removes. -/
def staleStep (dir appLog : Str) (fs : Fs) (v : Visit) : Fs × List Str :=
  match staleName dir fs v with
  | some name => (actsOn strerror appLog fs (staleActs dir v name), [name])
  | none => (fs, [])

/-- The stem of the entry, when it is a log that `rm_orphaned_logs` removes. -/
def orphanName (dir : Str) (fs : Fs) (v : Visit) : Option Str :=
  let stem := toStringLossy (fileStem v.entry)
  if extension v.entry ≠ some (os "log".toList) then none
  else if v.entry = os appLogFileName then none
  else
    match fs.stat (join dir stem) with
    | .ok _ => none
    | .error _ => some stem

def orphanActs (dir : Str) (v : Visit) (stem : Str) : List Act :=
  [.remove (joinEntry dir v.entry) v.log, .note v.done .info ("removed ".toList ++ stem)]

/-- One entry of `rm_orphaned_logs`, and the session it removes. -/
def orphanStep (dir appLog : Str) (fs : Fs) (v : Visit) : Fs × List Str :=
  match orphanName dir fs v with
  | some stem => (actsOn strerror appLog fs (orphanActs dir v stem), [stem])
  | none => (fs, [])

def rmAllWarning : Str :=
  "warning: session name is ignored when -a is used; removing all stale sessions".toList

def rmAllMessage (count : Nat) : Str :=
  if count = 0 then "nothing to remove".toList
  else (toString count).toList ++ " session(s) removed".toList

/-- What `rm -a` records first, when a session is named too. -/
def warnedActs (named : Option RecordAns) : List Act :=
  match named with
  | some a => [.note a .warn rmAllWarning]
  | none => []

/-- `rm -a`. -/
def rmAll (dir appLog : Str) (fs : Fs) (named : Option RecordAns) (socks logs : List Visit) (done : RecordAns) : Fs :=
  let warned := actsOn strerror appLog fs (warnedActs named)
  let stale := run (staleStep strerror dir appLog) warned socks
  let orphaned := run (orphanStep strerror dir appLog) stale.1 logs
  actsOn strerror appLog orphaned.1 [.note done .info (rmAllMessage (stale.2.length + orphaned.2.length))]

theorem orphanName_eq_some_iff {dir : Str} {fs : Fs} {v : Visit} {stem : Str} : orphanName dir fs v = some stem ↔
    extension v.entry = some (os "log".toList) ∧ v.entry ≠ os appLogFileName ∧ toStringLossy (fileStem v.entry) = stem ∧
      ¬ ∃ k, fs.stat (join dir stem) = .ok k := by
  simp only [orphanName]
  by_cases hext : extension v.entry ≠ some (os "log".toList)
  · rw [if_pos hext]
    exact iff_of_false (by simp) (fun h => hext h.1)
  · rw [if_neg hext]
    by_cases happ : v.entry = os appLogFileName
    · simp [happ]
    · simp only [not_not.1 hext, ne_eq, happ, not_false_eq_true, true_and, if_false]
      cases hk : fs.stat (join dir (toStringLossy (fileStem v.entry))) with
      | ok k =>
        apply iff_of_false (by simp)
        rintro ⟨rfl, hno⟩
        exact hno ⟨k, hk⟩
      | error err =>
        rw [Option.some_inj]
        refine (and_iff_left_of_imp ?_).symm
        rintro rfl
        simp [hk]

theorem clearFile_after (fs : Fs) (path : Str) : FileSystem.Fs.After fs (clearFile fs path) := by
  unfold clearFile
  cases hopen : fs.openFile false path with
  | ok r => exact (FileSystem.Fs.openFile_after hopen).trans (FileSystem.Fs.truncate_after _ _ _)
  | error e => exact .refl fs

section
variable (strerror : Errno → Str) (appLog : Str)

theorem removeFileIfExists_after (fs : Fs) (path : OsStr) (a : RecordAns) :
    FileSystem.Fs.After fs (removeFileIfExists strerror appLog fs path a) := by
  have hunlink := FileSystem.Fs.unlink_after fs path
  rw [removeFileIfExists]
  split
  · rename_i h
    rwa [h] at hunlink
  · rename_i h
    rw [h] at hunlink
    split
    · exact hunlink
    · exact hunlink.trans (record_after _ _ _)

theorem clearFile_dir {fs : Fs} {path : Str} {p : OsStr} {i : Nat} (hp : fs.dir p = some i) :
    (clearFile fs path).dir p = some i := by
  unfold clearFile
  cases hopen : fs.openFile false path with
  | ok r =>
    dsimp only
    rw [FileSystem.Fs.truncate_dir]
    exact FileSystem.Fs.openFile_dir hopen hp
  | error e => exact hp

theorem clearFile_cuts_eq_iff {fs : Fs} {path : Str} {j : Nat} (hj : j < fs.next) :
    (clearFile fs path).cuts j = fs.cuts j ↔
      ¬ (fs.inode path = .ok j ∧ ∃ content, fs.node j = .regular content ∧ True) := by
  unfold clearFile
  cases hopen : fs.openFile false path with
  | ok r =>
    apply FileSystem.Fs.openFile_cuts_eq_iff hopen hj
    rw [FileSystem.Fs.truncate_cuts_eq_iff]
    simp only [and_true]
  | error e => exact iff_of_true rfl (FileSystem.Fs.not_regular_of_openFile hopen)

variable {strerror appLog}

theorem act_after (l : Life) (act : Act) : FileSystem.Fs.After l.fs (act.step strerror appLog l).1.fs := by
  cases act with
  | listen a path => exact listenUnix_after _ _ _
  | openLog path maxSize a => exact openLog_after _ _ _ _
  | life x => exact l.step_after appLog x
  | unlink path => exact FileSystem.Fs.unlink_after _ _
  | remove path a => exact removeFileIfExists_after _ _ _ _ _
  | clear path => exact clearFile_after _ _

end

/-- What `session_daemon_main` and its child do to files, up to where the listener goes with the process that has it. -/
def startActs (strerror : Errno → Str) (fs : Fs) (sess : Session) (dontfork : Bool) (a : StartAns) : List Act :=
  .listen a.listen sess.sockname ::
    match (listenUnix fs a.listen sess.sockname).2 with
    | .error err => [.note a.refusal .error (refusalMessage strerror sess err)]
    | .ok _ =>
      match if dontfork then none else a.fork with
      | some err => [.note a.refusal .error (forkMessage strerror err), .unlink sess.sockname]
      | none =>
        (if 0 < sess.logMaxSize then [.openLog (logPath sess.sockname) sess.logMaxSize a] else []) ++
          if a.forkpty then
            a.life.map .life ++
              if a.killed then [] else [.life (.output sess.endMarker), .unlink sess.sockname]
          else [.note a.noPty .error noPtyMessage]

/-- Once it has probed, a start-up removes nothing but the socket it has made. -/
theorem mem_startActs_tail {strerror : Errno → Str} {fs : Fs} {sess : Session} {dontfork : Bool} {a : StartAns} {act : Act}
    (hact : act ∈ (startActs strerror fs sess dontfork a).tail) :
    (∃ x, act = .life x) ∨ (∃ path maxSize, act = .openLog path maxSize a) ∨
      (act = .unlink sess.sockname ∧ (listenUnix fs a.listen sess.sockname).2 = .ok ()) := by
  rw [startActs, List.tail_cons] at hact
  cases hres : (listenUnix fs a.listen sess.sockname).2 with
  | error err =>
    rw [hres] at hact
    exact .inl ⟨_, List.mem_singleton.1 hact⟩
  | ok _ =>
    simp only [hres] at hact
    split at hact
    · simp only [List.mem_cons, List.not_mem_nil, or_false] at hact
      rcases hact with rfl | rfl
      · exact .inl ⟨_, rfl⟩
      · exact .inr (.inr ⟨rfl, rfl⟩)
    · rcases List.mem_append.1 hact with hopen | hdaemon
      · split at hopen
        · exact .inr (.inl ⟨_, _, List.mem_singleton.1 hopen⟩)
        · cases hopen
      · split at hdaemon
        · rcases List.mem_append.1 hdaemon with hlife | hend
          · obtain ⟨x, -, rfl⟩ := List.mem_map.1 hlife
            exact .inl ⟨x, rfl⟩
          · split at hend
            · cases hend
            · simp only [List.mem_cons, List.not_mem_nil, or_false] at hend
              rcases hend with rfl | rfl
              · exact .inl ⟨_, rfl⟩
              · exact .inr (.inr ⟨rfl, rfl⟩)
        · exact .inl ⟨_, List.mem_singleton.1 hdaemon⟩

theorem run_life (strerror : Errno → Str) (appLog : Str) : ∀ (xs : List LifeStep) (l : Life),
    run (Act.step strerror appLog) l (xs.map .life) = run (Life.step appLog) l xs
  | [], _ => rfl
  | x :: xs, l => by
    rw [List.map_cons, Machine.run_cons, Machine.run_cons, run_life strerror appLog xs]
    rfl

/-- The acts of a daemon from its `new` on are what it does. -/
theorem daemon_acts (strerror : Errno → Str) (fs : Fs) (sess : Session) (a : StartAns) :
    (run (Act.step strerror sess.appLog) ⟨fs, none⟩
      ((if 0 < sess.logMaxSize then [.openLog (logPath sess.sockname) sess.logMaxSize a] else []) ++
        if a.forkpty then
          a.life.map .life ++
            if a.killed then [] else [.life (.output sess.endMarker), .unlink sess.sockname]
        else [.note a.noPty .error noPtyMessage])).1.fs =
      if a.forkpty then
        let life := (run (Life.step sess.appLog) (sessionDaemonNew fs sess a).1 a.life).1
        if a.killed then life.fs else cleanupSession life sess
      else (sessionDaemonNew fs sess a).1.fs := by
  have hopen : (run (Act.step strerror sess.appLog) ⟨fs, none⟩
      (if 0 < sess.logMaxSize then [.openLog (logPath sess.sockname) sess.logMaxSize a] else [])).1 =
      if 0 < sess.logMaxSize then openLog fs (logPath sess.sockname) sess.logMaxSize a else ⟨fs, none⟩ := by
    split <;> rfl
  rw [Machine.run_append, hopen, sessionDaemonNew]
  generalize (if 0 < sess.logMaxSize then openLog fs (logPath sess.sockname) sess.logMaxSize a else ⟨fs, none⟩) = life
  cases a.forkpty with
  | true =>
    simp only [if_true]
    rw [Machine.run_append, run_life]
    cases a.killed with
    | true => rfl
    | false => rfl
  | false => rfl

/-- **The files when a start-up has finished** are what its acts leave, of which at most the listener is then gone. -/
theorem sessionDaemonMain_acts (strerror : Errno → Str) (fs : Fs) (sess : Session) (dontfork : Bool) (a : StartAns) :
    (sessionDaemonMain strerror fs sess dontfork a).1 = actsOn strerror sess.appLog fs (startActs strerror fs sess dontfork a) ∨
    ((∃ stream, (listenUnix fs a.listen sess.sockname).2 = .ok stream) ∧
      (sessionDaemonMain strerror fs sess dontfork a).1 =
        listenAt (actsOn strerror sess.appLog fs (startActs strerror fs sess dontfork a)) sess.sockname false) := by
  rw [actsOn, startActs, Machine.run_cons]
  simp only [Act.step]
  cases h : listenUnix fs a.listen sess.sockname with
  | mk fs' res =>
    cases res with
    | error err =>
      refine .inl ?_
      simp only [sessionDaemonMain, h]
      rfl
    | ok stream =>
      refine .inr ⟨⟨stream, rfl⟩, ?_⟩
      simp only [sessionDaemonMain, h]
      cases dontfork with
      | true =>
        simp only [if_true]
        rw [daemon_acts, sessionDaemonNew_eq]
        cases a.forkpty <;> rfl
      | false =>
        simp only [Bool.false_eq_true, if_false]
        cases hfork : a.fork with
        | some err => rfl
        | none =>
          simp only
          rw [daemon_acts, sessionDaemonNew_eq]
          cases a.forkpty <;> rfl

end Zatch
