import Zatch.AppLog
/-!
# Startup — what a start-up that fails leaves at the session's path (`session_daemon_main`)

`listen_unix` makes the socket before anything else, and of the steps after it only `fork` undoes it when it fails
(`failed_start_clean_iff`).  The model is the whole life of the call and its child, to where both have finished.
-/
namespace Zatch

open Machine (run)
open FileCells (writeAt)

/-- What `session_daemon_main` reads of a session. -/
structure Session where
  progname : Str
  appLog : Str
  sockname : Str
  logMaxSize : Nat
  sockname_ne : sockname ≠ []

/-- A session of this name, as the commands make it. -/
def Session.named (env : Env) (progname : Str) (logMaxSize : Nat) (name : Str) : Session where
  progname := progname
  appLog := join (sessionDir env progname) appLogFileName
  sockname := expandSockname env progname name
  logMaxSize := logMaxSize
  sockname_ne := expandSockname_ne_nil env progname name

def Session.shortname (sess : Session) : Str := lastSegment '/' sess.sockname

def logPath (sockname : Str) : Str := sockname ++ ".log".toList

/-- The files under a daemon, and its log's file and offset. -/
structure Life where
  fs : Fs
  log : Option (Nat × Nat)

/-- What a running daemon does to files: its log gets output, the application log a record. -/
inductive LifeStep
  | output (data : List Byte)
  | note (n : Note)
deriving DecidableEq, Repr

def Life.step (appLog : Str) (l : Life) : LifeStep → Life × List Byte
  | .output data =>
    match l.log with
    | some (i, pos) => (⟨l.fs.rewrite i (writeAt 0 · pos data), some (i, pos + data.length)⟩, data)
    | none => (l, [])
  | .note n => ({ l with fs := record appLog l.fs n }, [])

/-- What the system calls of `session_daemon_main` and its child answer, besides what the file system says. -/
structure StartAns where
  listen : ListenAns
  refusal : RecordAns
  pipe : Bool
  fork : Option Errno
  logOpens : Bool
  logGot : Nat
  forkpty : Bool
  noPty : RecordAns
  flagWritten : Bool
  flagRead : Bool
  /-- what the daemon does until its run ends -/
  life : List LifeStep
  /-- it is killed before its cleanup -/
  killed : Bool

/-- `SessionLog::open`. -/
def openLog (fs : Fs) (path : Str) (maxSize : Nat) (a : StartAns) : Life :=
  if a.logOpens then
    match fs.openFile true path with
    | .error _ => ⟨fs, none⟩
    | .ok (fs, i) =>
      let fs := fs.prune i (rotate · maxSize a.logGot)
      match fs.node i with
      | .regular content => ⟨fs, some (i, content.length)⟩
      | _ => ⟨fs, some (i, 0)⟩
  else ⟨fs, none⟩

def noPtyMessage : Str := "Could not find a pty.".toList

/-- `SessionDaemon::new`: the daemon, or the exit code. -/
def sessionDaemonNew (fs : Fs) (sess : Session) (a : StartAns) : Life × Option Nat :=
  let life := if 0 < sess.logMaxSize then openLog fs (logPath sess.sockname) sess.logMaxSize a else ⟨fs, none⟩
  if a.forkpty then (life, none)
  else
    let n := { a.noPty with level := .error, message := noPtyMessage }
    ({ life with fs := record sess.appLog life.fs n }, some 1)

def Session.endMarker (sess : Session) : List Byte :=
  utf8 ("\r\n[".toList ++ sess.progname ++ ": session '".toList ++ sess.shortname ++ "' ended]\r\n".toList)

/-- `cleanup_session`, and `SessionDaemon::cleanup`, which is the same. -/
def cleanupSession (life : Life) (sess : Session) : Fs :=
  ((life.step sess.appLog (.output sess.endMarker)).1.fs.unlink sess.sockname).1

/-- `SessionDaemon::run` to where the daemon has gone, and its listener with it. -/
def daemonRun (life : Life) (sess : Session) (a : StartAns) : Fs :=
  let life := (run (Life.step sess.appLog) life a.life).1
  listenAt (if a.killed then life.fs else cleanupSession life sess) sess.sockname false

variable (strerror : Errno → Str)

/-- What is recorded when `listen_unix` fails. -/
def refusalMessage (sess : Session) (err : Errno) : Str :=
  if err = .eaddrinuse then "session '".toList ++ sess.shortname ++ "' is already running".toList
  else sess.sockname ++ ": ".toList ++ strerror err

def forkMessage (err : Errno) : Str := "fork: ".toList ++ strerror err

/-- The files when the call and its child have finished, and what the call has returned, where it has returned a failure. -/
def sessionDaemonMain (fs : Fs) (sess : Session) (dontfork : Bool) (a : StartAns) : Fs × Option Nat :=
  match listenUnix fs a.listen sess.sockname with
  | (fs, .error err) =>
    (record sess.appLog fs { a.refusal with level := .error, message := refusalMessage strerror sess err }, some 1)
  | (fs, .ok _) =>
    if dontfork then
      match sessionDaemonNew fs sess a with
      | (life, some ec) => (listenAt life.fs sess.sockname false, some ec)
      | (life, none) => (daemonRun life sess a, none)
    else
      match a.fork with
      | some err =>
        let n := { a.refusal with level := .error, message := forkMessage strerror err }
        (listenAt (cleanupSession ⟨record sess.appLog fs n, none⟩ sess) sess.sockname false, some 1)
      | none =>
        match sessionDaemonNew fs sess a with
        | (life, some _) =>
          (listenAt life.fs sess.sockname false,
            if a.pipe ∧ a.flagWritten ∧ a.flagRead then some 1 else none)
        | (life, none) => (daemonRun life sess a, none)

/-- A call that has failed has its session's path as it was, or without the stale socket that was there. -/
def FailsClean (fs : Fs) (path : Str) (out : Fs × Option Nat) : Prop :=
  ∀ code, out.2 = some code → code ≠ 0 →
    out.1.dir path = fs.dir path ∨ (out.1.dir path = none ∧ fs.stat path = .ok (.socket false))

/-- The socket is made, and a step fails that does not undo it. -/
def LeavesSocket (fs : Fs) (sess : Session) (dontfork : Bool) (a : StartAns) : Prop :=
  Binds fs a.listen sess.sockname ∧
    (a.listen.setup sess.sockname ≠ none ∨
      if dontfork then a.forkpty = false
      else (a.fork ≠ none ∧ fs.frozen sess.sockname = true) ∨
        (a.fork = none ∧ a.forkpty = false ∧ a.pipe = true ∧ a.flagWritten = true ∧ a.flagRead = true))

/-- The call removes a file that is no socket, and then fails before it makes a socket or undoes that it made one. -/
def LosesFile (fs : Fs) (sess : Session) (dontfork : Bool) (a : StartAns) : Prop :=
  RefusedFile fs a.listen.probe sess.sockname ∧ fs.Removable sess.sockname ∧
    (¬ Binds fs a.listen sess.sockname ∨
      (a.listen.setup sess.sockname = none ∧ dontfork = false ∧ a.fork ≠ none))

/-- No socket is made at the free path, which is where the application log is then made. -/
def LogsThere (fs : Fs) (sess : Session) (a : StartAns) : Prop :=
  ¬ Binds fs a.listen sess.sockname ∧ (fs.dir sess.sockname = none ∨ Clears fs a.listen.probe sess.sockname) ∧
    a.refusal.opens = true ∧
    (cleared fs a.listen.probe sess.sockname).resolve (FileSystem.Fs.symlinkMax + 1) sess.appLog = .ok (os sess.sockname)

theorem openLog_after (fs : Fs) (path : Str) (maxSize : Nat) (a : StartAns) :
    FileSystem.Fs.After fs (openLog fs path maxSize a).fs := by
  rw [openLog]
  split
  · split
    · exact .refl fs
    · rename_i fs' i hopen
      have hpruned := (FileSystem.Fs.openFile_after hopen).trans
        (FileSystem.Fs.prune_after fs' i (rotate · maxSize a.logGot))
      simp only
      split <;> exact hpruned
  · exact .refl fs

theorem Life.step_after (appLog : Str) (l : Life) (x : LifeStep) : FileSystem.Fs.After l.fs (l.step appLog x).1.fs := by
  cases x with
  | output data =>
    rw [Life.step]
    split
    · exact FileSystem.Fs.rewrite_after _ _ _
    · exact .refl _
  | note n => exact record_after _ _ _

theorem openLog_dir {fs : Fs} {path : Str} {maxSize i : Nat} {a : StartAns} {p : OsStr} (hp : fs.dir p = some i) :
    (openLog fs path maxSize a).fs.dir p = some i := by
  rw [openLog]
  split
  · split
    · exact hp
    · rename_i hopen
      have hkept := FileSystem.Fs.openFile_dir hopen hp
      simp only
      split <;> simpa using hkept
  · exact hp

/-- **Opening a session's log cuts back** the file it leads to, when that is too long, and no other. -/
theorem openLog_cuts_eq_iff {fs : Fs} {path : Str} {maxSize j : Nat} {a : StartAns} (hj : j < fs.next) :
    (openLog fs path maxSize a).fs.cuts j = fs.cuts j ↔
      ¬ (a.logOpens = true ∧ fs.inode path = .ok j ∧
        ∃ content, fs.node j = .regular content ∧ maxSize < content.length ∧ maxSize ≠ 0 ∧ a.logGot ≠ 0) := by
  rw [openLog]
  by_cases hopens : a.logOpens = true
  · rw [if_pos hopens, and_iff_right hopens]
    split
    · rename_i he
      exact iff_of_true rfl (FileSystem.Fs.not_regular_of_openFile he)
    · rename_i fs' i hopen
      apply FileSystem.Fs.openFile_cuts_eq_iff hopen hj
      have hrot : ∀ content, rotate content maxSize a.logGot ≠ content ↔
          maxSize < content.length ∧ maxSize ≠ 0 ∧ a.logGot ≠ 0 := by
        intro content
        rw [ne_eq, rotate_eq_iff, not_or, not_or, Nat.not_le]
      simp only [← hrot]
      rw [← FileSystem.Fs.prune_cuts_eq_iff]
      split <;> rfl
  · rw [if_neg hopens]
    simp [hopens]

theorem sessionDaemonNew_dir {fs : Fs} {sess : Session} {a : StartAns} {p : OsStr} {i : Nat} (hp : fs.dir p = some i) :
    (sessionDaemonNew fs sess a).1.fs.dir p = some i := by
  have hopen : (if 0 < sess.logMaxSize then openLog fs (logPath sess.sockname) sess.logMaxSize a else ⟨fs, none⟩).fs.dir p
      = some i := by
    split
    · exact openLog_dir hp
    · exact hp
  rw [sessionDaemonNew]
  split
  · exact hopen
  · exact record_dir hopen

theorem sessionDaemonNew_eq (fs : Fs) (sess : Session) (a : StartAns) :
    sessionDaemonNew fs sess a = ((sessionDaemonNew fs sess a).1, if a.forkpty then none else some 1) := by
  rw [sessionDaemonNew]
  cases a.forkpty <;> rfl

theorem failsClean_of_ret_none {fs : Fs} {path : Str} {out : Fs × Option Nat} (hret : out.2 = none) :
    FailsClean fs path out := by
  intro code hcode
  rw [hret] at hcode
  cases hcode

theorem not_failsClean_of_changed {fs : Fs} {path : Str} {out : Fs × Option Nat} (hret : out.2 = some 1)
    (hnew : out.1.dir path ≠ none) (hchanged : out.1.dir path ≠ fs.dir path) : ¬ FailsClean fs path out := by
  intro h
  rcases h 1 hret Nat.one_ne_zero with hsame | ⟨hnone, -⟩
  · exact hchanged hsame
  · exact hnew hnone

theorem not_failsClean_of_new {fs : Fs} {path : Str} {out : Fs × Option Nat} (hret : out.2 = some 1)
    (hnew : out.1.dir path = some fs.next) : ¬ FailsClean fs path out := by
  apply not_failsClean_of_changed hret
  · rw [hnew]
    exact Option.some_ne_none _
  · intro hsame
    exact Nat.lt_irrefl _ (fs.dir_lt _ _ (hsame.symm.trans hnew))

/-- A path that is free at the end of a call that failed was free before, or had what the probe cleared away. -/
theorem failsClean_of_gone {fs : Fs} {probe : Option Trouble} {path : Str} {out : Fs × Option Nat} (hret : out.2 = some 1)
    (hgone : out.1.dir path = none) (hfree : fs.dir path = none ∨ Clears fs probe path) :
    FailsClean fs path out ↔ ¬ (RefusedFile fs probe path ∧ fs.Removable path) := by
  constructor
  · rintro h ⟨⟨-, -, -, kind, hkind, hsock⟩, i, hp, -⟩
    rcases h 1 hret Nat.one_ne_zero with hsame | ⟨-, hstat⟩
    · rw [hgone, hp] at hsame
      cases hsame
    · rw [hstat, Except.ok.injEq] at hkind
      subst hkind
      cases hsock
  · intro h code _ _
    rcases hfree with hnone | ⟨hconn, hrem⟩
    · exact .inl (hgone.trans hnone.symm)
    · rcases connect_refused_iff_connectSocket.1 hconn with hstale | hfile
      · exact .inr ⟨hgone, (connectSocket_refused_iff.1 hstale).2.2.2⟩
      · exact absurd ⟨hfile, hrem⟩ h

theorem listened_dir (fs : Fs) (probe : Option Trouble) (path : Str) (listening : Bool) :
    ((cleared fs probe path).make path (.socket listening)).dir path = some fs.next := by
  rw [FileSystem.Fs.make_dir_self, cleared_next]

section
variable {strerror : Errno → Str} {fs : Fs} {sess : Session} {dontfork : Bool} {a : StartAns}

/-- A call that makes no socket. -/
theorem failed_listen_clean_iff (hb : ¬ Binds fs a.listen sess.sockname) :
    FailsClean fs sess.sockname (sessionDaemonMain strerror fs sess dontfork a) ↔
      ¬ LosesFile fs sess dontfork a ∧ ¬ LogsThere fs sess a := by
  obtain ⟨e, he⟩ := listenUnix_of_not_binds sess.sockname_ne hb
  have hloses : LosesFile fs sess dontfork a ↔
      RefusedFile fs a.listen.probe sess.sockname ∧ fs.Removable sess.sockname := by
    simp [LosesFile, hb]
  simp only [sessionDaemonMain, he, hloses]
  by_cases hfree : fs.dir sess.sockname = none ∨ Clears fs a.listen.probe sess.sockname
  · have hlogs : LogsThere fs sess a ↔ a.refusal.opens = true ∧
        (cleared fs a.listen.probe sess.sockname).resolve (FileSystem.Fs.symlinkMax + 1) sess.appLog =
          .ok (os sess.sockname) := by
      simp [LogsThere, hb, hfree]
    have hclear : (cleared fs a.listen.probe sess.sockname).dir sess.sockname = none := cleared_dir_eq_none_iff.2 hfree
    rw [hlogs]
    by_cases hlog : a.refusal.opens = true ∧ (cleared fs a.listen.probe sess.sockname).resolve
        (FileSystem.Fs.symlinkMax + 1) sess.appLog = .ok (os sess.sockname)
    · refine iff_of_false (not_failsClean_of_changed rfl ?_ ?_) (fun h => h.2 hlog)
      · rw [ne_eq, record_dir_of_free hclear, not_not]
        exact hlog
      · intro hsame
        cases hp : fs.dir sess.sockname with
        | none => exact (record_dir_of_free hclear).1 (hsame.trans hp) hlog
        | some i =>
          have hold := (record_after _ _ _).dir_of_old _ i (hsame.trans hp) (by rw [cleared_next]; exact fs.dir_lt _ i hp)
          rw [hclear] at hold
          cases hold
    · rw [failsClean_of_gone rfl ((record_dir_of_free hclear).2 hlog) hfree]
      exact (and_iff_left hlog).symm
  · obtain ⟨hfile, hkept⟩ := not_or.1 hfree
    obtain ⟨i, hp⟩ := Option.ne_none_iff_exists'.1 hfile
    refine iff_of_true (fun _ _ _ => .inl ?_) ⟨fun h => hkept ?_, fun h => hfree h.2.1⟩
    · rw [cleared_of_not_clears hkept, hp]
      exact record_dir hp
    · exact ⟨connect_refused_iff_connectSocket.2 (.inr h.1), h.2⟩

/-- A call that makes a socket and fails in what it does to it then. -/
theorem failed_setup_not_clean {e : Errno} (hb : Binds fs a.listen sess.sockname)
    (hsetup : a.listen.setup sess.sockname = some e) :
    ¬ FailsClean fs sess.sockname (sessionDaemonMain strerror fs sess dontfork a) := by
  simp only [sessionDaemonMain, listenUnix_of_binds sess.sockname_ne hb, hsetup]
  apply not_failsClean_of_new rfl
  exact record_dir (listened_dir fs _ _ _)

/-- A call that has its listener, in the foreground. -/
theorem failed_foreground_clean_iff (hb : Binds fs a.listen sess.sockname)
    (hsetup : a.listen.setup sess.sockname = none) :
    FailsClean fs sess.sockname (sessionDaemonMain strerror fs sess true a) ↔ a.forkpty = true := by
  simp only [sessionDaemonMain, listenUnix_of_binds sess.sockname_ne hb, hsetup, if_true]
  rw [sessionDaemonNew_eq]
  cases hpty : a.forkpty with
  | true => exact iff_of_true (failsClean_of_ret_none rfl) rfl
  | false =>
    simp only [Bool.false_eq_true, if_false]
    refine iff_of_false (not_failsClean_of_new rfl ?_) id
    rw [listenAt_dir]
    exact sessionDaemonNew_dir (listened_dir fs _ _ _)

/-- A call that has its listener and its child. -/
theorem failed_child_clean_iff (hb : Binds fs a.listen sess.sockname)
    (hsetup : a.listen.setup sess.sockname = none) (hfork : a.fork = none) :
    FailsClean fs sess.sockname (sessionDaemonMain strerror fs sess false a) ↔
      ¬ (a.forkpty = false ∧ a.pipe = true ∧ a.flagWritten = true ∧ a.flagRead = true) := by
  simp only [sessionDaemonMain, listenUnix_of_binds sess.sockname_ne hb, hsetup, hfork, Bool.false_eq_true, if_false]
  rw [sessionDaemonNew_eq]
  cases hpty : a.forkpty with
  | true => exact iff_of_true (failsClean_of_ret_none rfl) (fun h => Bool.false_ne_true h.1.symm)
  | false =>
    simp only [true_and, Bool.false_eq_true, if_false]
    split
    · refine iff_of_false (not_failsClean_of_new rfl ?_) (not_not_intro ‹_›)
      rw [listenAt_dir]
      exact sessionDaemonNew_dir (listened_dir fs _ _ _)
    · exact iff_of_true (failsClean_of_ret_none rfl) ‹_›

/-- A call that has its listener and cannot fork. -/
theorem failed_fork_clean_iff {err : Errno} (hb : Binds fs a.listen sess.sockname)
    (hsetup : a.listen.setup sess.sockname = none) (hfork : a.fork = some err) :
    FailsClean fs sess.sockname (sessionDaemonMain strerror fs sess false a) ↔
      fs.frozen sess.sockname = false ∧
        ¬ (RefusedFile fs a.listen.probe sess.sockname ∧ fs.Removable sess.sockname) := by
  simp only [sessionDaemonMain, listenUnix_of_binds sess.sockname_ne hb, hsetup, hfork, Bool.false_eq_true, if_false,
    cleanupSession, Life.step]
  generalize ({ a.refusal with level := .error, message := forkMessage strerror err } : Note) = n
  have hrec := @record_dir sess.appLog _ n _ _ (listened_dir fs a.listen.probe sess.sockname true)
  have hafter := record_after sess.appLog ((cleared fs a.listen.probe sess.sockname).make sess.sockname (.socket true)) n
  have hnext := cleared_next fs a.listen.probe sess.sockname
  have hnode := hafter.socket_of_old fs.next true (by rw [← hnext]; exact Nat.lt_succ_self _)
    (by rw [← hnext, FileSystem.Fs.make_node_next])
  have hfrozen := hafter.frozen_eq.trans (cleared_after fs a.listen.probe sess.sockname).frozen_eq
  generalize record sess.appLog ((cleared fs a.listen.probe sess.sockname).make sess.sockname (.socket true)) n = fs'
    at hrec hnode hfrozen
  have hrem : fs'.Removable sess.sockname ↔ fs.frozen sess.sockname = false := by
    rw [FileSystem.Fs.removable_iff hrec, hnode, hfrozen]
    exact and_iff_right rfl
  rw [← hrem]
  by_cases h : fs'.Removable sess.sockname
  · rw [and_iff_right h]
    refine failsClean_of_gone rfl ?_ hb.2.2
    rw [listenAt_dir, FileSystem.Fs.unlink_of_removable h, FileSystem.Fs.drop_dir_self]
  · refine iff_of_false (not_failsClean_of_new rfl ?_) (fun hclean => h hclean.1)
    rw [listenAt_dir]
    exact (FileSystem.Fs.unlink_dir_eq_iff hrec).2 h

end

/-- **A start-up that fails leaves its session's path clean**, whatever was there and whichever steps fail, exactly when it
fails where nothing it has done is left to undo, or undoes it. -/
theorem failed_start_clean_iff (fs : Fs) (sess : Session) (dontfork : Bool) (a : StartAns) :
    FailsClean fs sess.sockname (sessionDaemonMain strerror fs sess dontfork a) ↔
      ¬ LeavesSocket fs sess dontfork a ∧ ¬ LosesFile fs sess dontfork a ∧ ¬ LogsThere fs sess a := by
  by_cases hb : Binds fs a.listen sess.sockname
  · have hlogs : ¬ LogsThere fs sess a := fun h => h.1 hb
    rw [and_iff_left hlogs]
    cases hsetup : a.listen.setup sess.sockname with
    | some e =>
      refine iff_of_false (failed_setup_not_clean hb hsetup) (fun h => h.1 ⟨hb, .inl ?_⟩)
      rw [hsetup]
      exact Option.some_ne_none e
    | none =>
      cases dontfork with
      | true =>
        rw [failed_foreground_clean_iff hb hsetup]
        simp [LeavesSocket, LosesFile, hb, hsetup]
      | false =>
        cases hfork : a.fork with
        | none =>
          rw [failed_child_clean_iff hb hsetup hfork]
          simp [LeavesSocket, LosesFile, hb, hsetup, hfork]
        | some err =>
          rw [failed_fork_clean_iff hb hsetup hfork]
          simp [LeavesSocket, LosesFile, hb, hsetup, hfork]
  · have hleaves : ¬ LeavesSocket fs sess dontfork a := fun h => hb h.1
    rw [and_iff_right hleaves]
    exact failed_listen_clean_iff hb

/-- A start-up that goes well but for its terminal, and records nothing. -/
def noTerminal : StartAns where
  listen := ⟨none, none, none, none, none⟩
  refusal := ⟨0, false, 0, false, 0⟩
  pipe := true
  fork := none
  logOpens := true
  logGot := 0
  forkpty := false
  noPty := ⟨0, false, 0, false, 0⟩
  flagWritten := true
  flagRead := true
  life := []
  killed := false

/-- `ztch start ./s` when the system is out of terminals: the call says so, and its socket stays. -/
theorem failed_start_leaves_socket : ¬ ∀ (strerror : Errno → Str) (fs : Fs) (sess : Session) (dontfork : Bool)
    (a : StartAns), FailsClean fs sess.sockname (sessionDaemonMain strerror fs sess dontfork a) := by
  intro h
  have hleft := h (fun _ => []) (fileAt "/log".toList (.regular []))
    ⟨"ztch".toList, "/log".toList, "./s".toList, 64, by decide⟩
    false noTerminal 1 (by decide) Nat.one_ne_zero
  revert hleft
  decide

end Zatch
