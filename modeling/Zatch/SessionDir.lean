import Zatch.Commands
/-!
# SessionDir — what a command on one session does to the files of another

Sockets and logs share one directory, and a name may end in `.log`: the log of the session `a` is where the session
`a.log` has its socket.  Beside the names, two sessions may have one log file, through links, or the application log for
theirs.  What a live session keeps is its socket and its log, and each act of a command keeps them or not by what it finds
before it (`act_kept_iff`); which commands can lose them is `command_untouched_iff`.
-/
namespace Zatch

open Machine (run Along)
open FileSystem.Fs (After)

/-- The files of a session: its socket's name, and its log's file, if it has one. -/
structure Owned where
  sockname : Str
  log : Option Nat

/-- The file that is the session's log, when that is a regular file. -/
def logFile (fs : Fs) (sockname : Str) : Option Nat :=
  match fs.inode (logPath sockname) with
  | .ok i =>
    match fs.node i with
    | .regular _ => some i
    | _ => none
  | .error _ => none

def Owned.of (fs : Fs) (sockname : Str) : Owned := ⟨sockname, logFile fs sockname⟩

namespace Owned

/-- The session's socket is still in its place, and its log, and the log was not truncated. -/
structure Kept (o : Owned) (fs fs' : Fs) : Prop where
  socket : fs'.dir o.sockname = fs.dir o.sockname
  log : ∀ i, o.log = some i → fs'.dir (logPath o.sockname) = fs.dir (logPath o.sockname)
  whole : ∀ i, o.log = some i → fs'.cuts i = fs.cuts i

/-- The session is live, and its log where it was. -/
structure In (o : Owned) (fs : Fs) : Prop where
  socket : ∃ j, fs.dir o.sockname = some j ∧ fs.node j = .socket true
  log : ∀ i, o.log = some i →
    i < fs.next ∧ ∃ k, fs.dir (logPath o.sockname) = some k ∧ (fs.node k).isDirectory = false

/-- The name is one of the session's. -/
def Names (o : Owned) (p : OsStr) : Prop := p = o.sockname ∨ (o.log ≠ none ∧ p = os (logPath o.sockname))

/-- The links from a name lead to the session's log, of a size of which `P`. -/
def LogAt (o : Owned) (fs : Fs) (path : Str) (P : Nat → Prop) : Prop :=
  ∃ i content, o.log = some i ∧ fs.inode path = .ok i ∧ fs.node i = .regular content ∧ P content.length

theorem Kept.refl (o : Owned) (fs : Fs) : o.Kept fs fs := ⟨rfl, fun _ _ => rfl, fun _ _ => rfl⟩

variable {o : Owned} {fs fs' fs'' : Fs}

theorem Kept.trans (h : o.Kept fs fs') (h' : o.Kept fs' fs'') : o.Kept fs fs'' where
  socket := h'.socket.trans h.socket
  log i hi := (h'.log i hi).trans (h.log i hi)
  whole i hi := (h'.whole i hi).trans (h.whole i hi)

/-- **What is lost is not given back**: a session's files are kept in two steps when they are kept in each. -/
theorem kept_trans_iff (hin : o.In fs) (hnext : fs.next ≤ fs'.next) (hcuts : ∀ i, fs.cuts i ≤ fs'.cuts i)
    (h' : After fs' fs'') : o.Kept fs fs'' ↔ o.Kept fs fs' ∧ o.Kept fs' fs'' := by
  refine ⟨fun h => ?_, fun h => h.1.trans h.2⟩
  obtain ⟨j, hj, -⟩ := hin.socket
  have hsock : fs'.dir o.sockname = some j :=
    h'.dir_of_old _ j (h.socket.trans hj) (Nat.lt_of_lt_of_le (fs.dir_lt _ j hj) hnext)
  have hlog : ∀ i, o.log = some i → fs'.dir (logPath o.sockname) = fs.dir (logPath o.sockname) := by
    intro i hi
    obtain ⟨-, k, hk, -⟩ := hin.log i hi
    rw [hk]
    exact h'.dir_of_old _ k ((h.log i hi).trans hk) (Nat.lt_of_lt_of_le (fs.dir_lt _ k hk) hnext)
  have hwhole : ∀ i, o.log = some i → fs'.cuts i = fs.cuts i :=
    fun i hi => Nat.le_antisymm (h.whole i hi ▸ h'.cuts_le i) (hcuts i)
  refine ⟨⟨hsock.trans hj.symm, hlog, hwhole⟩, ⟨?_, fun i hi => ?_, fun i hi => ?_⟩⟩
  · rw [h.socket, hsock, hj]
  · rw [h.log i hi, hlog i hi]
  · rw [h.whole i hi, hwhole i hi]

theorem In.kept (hin : o.In fs) (hafter : After fs fs') (h : o.Kept fs fs') : o.In fs' where
  socket := by
    obtain ⟨j, hj, hnode⟩ := hin.socket
    exact ⟨j, h.socket.trans hj, hafter.socket_of_old j true (fs.dir_lt _ j hj) hnode⟩
  log i hi := by
    obtain ⟨hlt, k, hk, hnode⟩ := hin.log i hi
    refine ⟨Nat.lt_of_lt_of_le hlt hafter.next_le, k, (h.log i hi).trans hk, ?_⟩
    rw [hafter.isDirectory_of_old k (fs.dir_lt _ k hk), hnode]

/-- A change to one name keeps the files of a session that does not have it. -/
theorem kept_of_not_names {p : OsStr} (hp : ¬ o.Names p) (hdir : ∀ q, q ≠ p → fs'.dir q = fs.dir q)
    (hcuts : fs'.cuts = fs.cuts) : o.Kept fs fs' where
  socket := hdir _ (fun h => hp (.inl h.symm))
  log i hi := hdir _ (fun h => hp (.inr ⟨by rw [hi]; exact Option.some_ne_none i, h.symm⟩))
  whole i _ := by rw [hcuts]

/-- A name of the session has a file. -/
theorem In.dir_of_names (hin : o.In fs) {p : OsStr} (hp : o.Names p) :
    ∃ i, fs.dir p = some i ∧ (fs.node i).isDirectory = false := by
  rcases hp with rfl | ⟨hlog, rfl⟩
  · obtain ⟨j, hj, hnode⟩ := hin.socket
    exact ⟨j, hj, by rw [hnode]; rfl⟩
  · obtain ⟨i, hi⟩ := Option.ne_none_iff_exists'.1 hlog
    obtain ⟨-, k, hk, hnode⟩ := hin.log i hi
    exact ⟨k, hk, hnode⟩

theorem kept_dir_of_names (h : o.Kept fs fs') {p : OsStr} (hp : o.Names p) : fs'.dir p = fs.dir p := by
  rcases hp with rfl | ⟨hlog, rfl⟩
  · exact h.socket
  · obtain ⟨i, hi⟩ := Option.ne_none_iff_exists'.1 hlog
    exact h.log i hi

/-- **An `unlink` loses a session's files** exactly when it is of one of their names, and that may be removed. -/
theorem kept_unlink_iff (hin : o.In fs) (p : OsStr) :
    o.Kept fs (fs.unlink p).1 ↔ ¬ (o.Names p ∧ fs.frozen p = false) := by
  have hcuts : (fs.unlink p).1.cuts = fs.cuts := by
    rcases FileSystem.Fs.unlink_fst fs p with h | h <;> rw [h]
    rfl
  by_cases hp : o.Names p
  · obtain ⟨i, hi, hnode⟩ := hin.dir_of_names hp
    have hrem : fs.Removable p ↔ fs.frozen p = false := by
      rw [FileSystem.Fs.removable_iff hi, and_iff_right hnode]
    rw [and_iff_right hp, ← hrem]
    constructor
    · intro h
      exact (FileSystem.Fs.unlink_dir_eq_iff hi).1 ((kept_dir_of_names h hp).trans hi)
    · intro h
      rw [FileSystem.Fs.unlink_of_not_removable h]
      exact .refl o fs
  · refine iff_of_true (kept_of_not_names hp (fun q hq => FileSystem.Fs.unlink_dir_of_ne hq) hcuts) (fun h => hp h.1)

/-- What leaves every name its file keeps a session's files when it does not truncate the log. -/
theorem kept_iff_whole (hin : o.In fs) (hdir : ∀ p i, fs.dir p = some i → fs'.dir p = some i) :
    o.Kept fs fs' ↔ ∀ i, o.log = some i → fs'.cuts i = fs.cuts i := by
  refine ⟨fun h => h.whole, fun h => ⟨?_, fun i hi => ?_, h⟩⟩
  · obtain ⟨j, hj, -⟩ := hin.socket
    rw [hj]
    exact hdir _ j hj
  · obtain ⟨-, k, hk, -⟩ := hin.log i hi
    rw [hk]
    exact hdir _ k hk

/-- An act that cuts the file it opens, if that has a size with `P`, keeps a session's files when that is not its log. -/
theorem kept_iff_of_cuts (hin : o.In fs) (hdir : ∀ p i, fs.dir p = some i → fs'.dir p = some i) {path : Str} {g : Prop}
    {P : Nat → Prop} (hcuts : ∀ j, j < fs.next → (fs'.cuts j = fs.cuts j ↔
      ¬ (g ∧ fs.inode path = .ok j ∧ ∃ content, fs.node j = .regular content ∧ P content.length))) :
    o.Kept fs fs' ↔ ¬ (g ∧ o.LogAt fs path P) := by
  rw [kept_iff_whole hin hdir]
  constructor
  · rintro h ⟨hg, i, content, hi, hinode, hnode, hP⟩
    exact (hcuts i (hin.log i hi).1).1 (h i hi) ⟨hg, hinode, content, hnode, hP⟩
  · intro h i hi
    rw [hcuts i (hin.log i hi).1]
    rintro ⟨hg, hinode, content, hnode, hP⟩
    exact h ⟨hg, i, content, hi, hinode, hnode, hP⟩

/-- A record keeps a session's files when its log is not the application log, grown too long. -/
def RecordKeeps (o : Owned) (appLog : Str) (fs : Fs) (n : Note) : Prop := ¬ (n.opens = true ∧ o.LogAt fs appLog n.Rotates)

theorem kept_record_iff (hin : o.In fs) (appLog : Str) (n : Note) :
    o.Kept fs (record appLog fs n) ↔ o.RecordKeeps appLog fs n :=
  kept_iff_of_cuts hin (fun _ _ => record_dir) (fun _ => record_cuts_eq_iff)

theorem kept_openLog_iff (hin : o.In fs) (path : Str) (maxSize : Nat) (a : StartAns) :
    o.Kept fs (openLog fs path maxSize a).fs ↔
      ¬ (a.logOpens = true ∧ o.LogAt fs path (fun size => maxSize < size ∧ maxSize ≠ 0 ∧ a.logGot ≠ 0)) :=
  kept_iff_of_cuts hin (fun _ _ => openLog_dir) (fun _ => openLog_cuts_eq_iff)

theorem kept_clearFile_iff (hin : o.In fs) (path : Str) :
    o.Kept fs (clearFile fs path) ↔ ¬ o.LogAt fs path (fun _ => True) := by
  rw [← true_and (o.LogAt fs path _)]
  refine kept_iff_of_cuts hin (fun _ _ => clearFile_dir) (fun j hj => ?_)
  rw [true_and]
  exact clearFile_cuts_eq_iff hj

theorem kept_output (appLog : Str) (l : Life) (data : List Byte) :
    o.Kept l.fs (l.step appLog (.output data)).1.fs := by
  rw [Life.step]
  split
  · refine ⟨?_, fun _ _ => ?_, fun _ _ => ?_⟩ <;> simp
  · exact .refl o _

/-- `listen_unix` loses a session's files when its path is the log's name, and it clears the log away. -/
theorem kept_listenUnix_iff (hin : o.In fs) (a : ListenAns) (path : Str) :
    o.Kept fs (listenUnix fs a path).1 ↔
      ¬ (o.log ≠ none ∧ path = logPath o.sockname ∧ Clears fs a.probe path) := by
  obtain ⟨hother, hcuts⟩ := listenUnix_frame fs a path
  by_cases hp : o.Names path
  · obtain ⟨i, hi, -⟩ := hin.dir_of_names hp
    constructor
    · rintro h ⟨-, -, hclears⟩
      obtain ⟨j, hj, hgone⟩ := (unlinked_iff (a := a)).2 hclears
      exact hgone ((kept_dir_of_names h hp).trans hj)
    · intro h
      have hclears : ¬ Clears fs a.probe path := by
        rintro ⟨hconn, hrem⟩
        rcases hp with hsock | ⟨hlog, hpath⟩
        · obtain ⟨j, hj, hnode⟩ := hin.socket
          rw [← hsock] at hj
          obtain ⟨-, -, -, kind, hstat, hdead⟩ := connect_refused_iff.1 hconn
          rw [FileSystem.Fs.stat_of_socket hj hnode, Except.ok.injEq] at hstat
          exact hdead hstat.symm
        · exact h ⟨hlog, os_injective hpath, hconn, hrem⟩
      rw [(listenUnix_of_file hi hclears).1]
      exact .refl o fs
  · refine iff_of_true (kept_of_not_names hp hother hcuts) (fun h => hp (.inr ⟨h.1, congrArg os h.2.1⟩))

section
variable (strerror : Errno → Str)

theorem kept_removeFileIfExists_iff (hin : o.In fs) (appLog : Str) (path : OsStr) (a : RecordAns) :
    o.Kept fs (removeFileIfExists strerror appLog fs path a) ↔
      ¬ (o.Names path ∧ fs.frozen path = false) ∧
        ∀ e, (fs.unlink path).2 = .error e → e ≠ .noEntry → o.RecordKeeps appLog fs (failureNote strerror path a e) := by
  have hkept := kept_unlink_iff hin path
  by_cases hrem : fs.Removable path
  · have hun := FileSystem.Fs.unlink_of_removable hrem
    have heq : removeFileIfExists strerror appLog fs path a = (fs.unlink path).1 := by rw [removeFileIfExists, hun]
    rw [heq, hkept, hun]
    exact (and_iff_left (fun e he => by cases he)).symm
  · obtain ⟨e, he⟩ := FileSystem.Fs.unlink_error hrem
    have heq : removeFileIfExists strerror appLog fs path a =
        if e = .noEntry then fs else record appLog fs (failureNote strerror path a e) := by
      rw [removeFileIfExists, he]
    rw [he] at hkept
    rw [← hkept, and_iff_right (Kept.refl o fs), heq, he]
    by_cases hno : e = .noEntry
    · rw [if_pos hno]
      refine iff_of_true (.refl o fs) (fun e' he' hne => absurd ?_ hne)
      cases he'
      exact hno
    · rw [if_neg hno, kept_record_iff hin]
      refine ⟨fun h e' he' _ => ?_, fun h => h e rfl hno⟩
      cases he'
      exact h

/-- The act removes none of a session's names. -/
def NamesKept (o : Owned) (fs : Fs) : Act → Prop
  | .listen a path => ¬ (o.log ≠ none ∧ path = logPath o.sockname ∧ Clears fs a.probe path)
  | .unlink path => ¬ (o.Names path ∧ fs.frozen path = false)
  | .remove path _ => ¬ (o.Names path ∧ fs.frozen path = false)
  | _ => True

/-- The act does not find a session's log where it cuts a file. -/
def LogKept (o : Owned) (appLog : Str) (fs : Fs) : Act → Prop
  | .openLog path maxSize a =>
    ¬ (a.logOpens = true ∧ o.LogAt fs path (fun size => maxSize < size ∧ maxSize ≠ 0 ∧ a.logGot ≠ 0))
  | .life (.note n) => o.RecordKeeps appLog fs n
  | .remove path a =>
    ∀ e, (fs.unlink path).2 = .error e → e ≠ .noEntry → o.RecordKeeps appLog fs (failureNote strerror path a e)
  | .clear path => ¬ o.LogAt fs path (fun _ => True)
  | _ => True

variable {strerror} {appLog : Str}

/-- **What an act does to a session's files.** -/
theorem act_kept_iff {l : Life} (hin : o.In l.fs) (act : Act) :
    o.Kept l.fs (act.step strerror appLog l).1.fs ↔ o.NamesKept l.fs act ∧ o.LogKept strerror appLog l.fs act := by
  cases act with
  | listen a path => exact (kept_listenUnix_iff hin a path).trans (and_iff_left trivial).symm
  | openLog path maxSize a => exact (kept_openLog_iff hin path maxSize a).trans (and_iff_right trivial).symm
  | life x =>
    cases x with
    | output data => exact iff_of_true (kept_output appLog l data) ⟨trivial, trivial⟩
    | note n => exact (kept_record_iff hin appLog n).trans (and_iff_right trivial).symm
  | unlink path => exact (kept_unlink_iff hin path).trans (and_iff_left trivial).symm
  | remove path a => exact kept_removeFileIfExists_iff strerror hin appLog path a
  | clear path => exact (kept_clearFile_iff hin path).trans (and_iff_right trivial).symm

/-- What holds of each act in the state it is done in. -/
def AlongActs (strerror : Errno → Str) (appLog : Str) (P : Fs → Act → Prop) (fs : Fs) (acts : List Act) : Prop :=
  Along (Act.step strerror appLog) (fun l act => P l.fs act) ⟨fs, none⟩ acts

variable (strerror) (appLog)

theorem actsOn_after (fs : Fs) (acts : List Act) : After fs (actsOn strerror appLog fs acts) :=
  Machine.run_inv (I := fun l => After fs l.fs) (fun l act h => h.trans (act_after l act)) acts ⟨fs, none⟩ (.refl fs)

/-- **Acts keep a session's files** exactly when each of them does. -/
theorem actsOn_kept_iff (hin : o.In fs) (acts : List Act) :
    o.Kept fs (actsOn strerror appLog fs acts) ↔
      AlongActs strerror appLog o.NamesKept fs acts ∧ AlongActs strerror appLog (o.LogKept strerror appLog) fs acts := by
  rw [AlongActs, AlongActs, ← Machine.along_and]
  have hrun := Machine.inv_run_iff (I := fun l => o.Kept fs l.fs) (J := fun l => After fs l.fs)
    (P := fun l act => o.NamesKept l.fs act ∧ o.LogKept strerror appLog l.fs act)
    (fun l act h => h.trans (act_after l act))
    (fun l act h hkept => ((kept_trans_iff hin h.next_le h.cuts_le (act_after l act)).1 hkept).1)
    (fun l act h hkept => by
      rw [kept_trans_iff hin h.next_le h.cuts_le (act_after l act), and_iff_right hkept]
      exact act_kept_iff (hin.kept h hkept) act)
    acts ⟨fs, none⟩ (.refl fs)
  rw [actsOn, ← hrun]
  exact and_iff_right (Kept.refl o fs)

end

/-! ## A log of its own -/

/-- What leads to the session's log has led to it. -/
def Since (o : Owned) (fs fs' : Fs) : Prop := ∀ i, o.log = some i → i < fs'.next ∧ FileSystem.Fs.Led fs fs' i

theorem In.since (hin : o.In fs) : o.Since fs fs := fun i hi => ⟨(hin.log i hi).1, .refl fs i⟩

theorem Since.after (h : o.Since fs fs') (h' : After fs' fs'') : o.Since fs fs'' := fun i hi =>
  ⟨Nat.lt_of_lt_of_le (h i hi).1 h'.next_le, (h i hi).2.trans (h'.led (h i hi).1)⟩

theorem Since.listenAt (h : o.Since fs fs') (path : OsStr) (listening : Bool) :
    o.Since fs (listenAt fs' path listening) := by
  intro i hi
  refine ⟨by rw [listenAt_next]; exact (h i hi).1, (h i hi).2.trans ⟨fun p hp => by rwa [listenAt_dir] at hp, ?_⟩⟩
  intro p target hp
  rw [FileSystem.Fs.look_eq_link_iff] at hp ⊢
  obtain ⟨j, hj, hnode⟩ := hp
  rw [listenAt_dir] at hj
  refine ⟨j, hj, ?_⟩
  rw [Zatch.listenAt] at hnode
  split at hnode
  · rename_i k _
    by_cases hjk : j = k
    · rw [hjk, FileSystem.Fs.setNode_node_self] at hnode
      cases hnode
    · rwa [FileSystem.Fs.setNode_node_of_ne _ _ hjk] at hnode
  · exact hnode

/-- The session's log is a regular file. -/
def Regular (o : Owned) (fs : Fs) : Prop := ∀ i, o.log = some i → ∃ content, fs.node i = .regular content

/-- What leads to the session's log later leads to it before. -/
theorem LogAt.before (hreg : o.Regular fs) (h : o.Since fs fs') {path : Str} {P : Nat → Prop} (hat : o.LogAt fs' path P) :
    o.LogAt fs path (fun _ => True) := by
  obtain ⟨i, -, hi, hinode, -, -⟩ := hat
  obtain ⟨content, hnode⟩ := hreg i hi
  exact ⟨i, content, hi, (h i hi).2.inode (fun target ht => by rw [hnode] at ht; cases ht) hinode, hnode, trivial⟩

variable {strerror : Errno → Str} {appLog : Str}

/-- **With an application log of its own** a session's log is cut by no record. -/
theorem recordKeeps_of_apart (hreg : o.Regular fs) (happ : ¬ o.LogAt fs appLog (fun _ => True)) (h : o.Since fs fs')
    (n : Note) : o.RecordKeeps appLog fs' n := fun hcut => happ (hcut.2.before hreg h)

/-- The act opens no session's log, and empties none. -/
def spares : Act → Bool
  | .openLog _ _ _ | .clear _ => false
  | _ => true

theorem logKept_of_apart (hreg : o.Regular fs) (happ : ¬ o.LogAt fs appLog (fun _ => True)) (h : o.Since fs fs') {act : Act}
    (hact : spares act = true) : o.LogKept strerror appLog fs' act := by
  cases act with
  | life x =>
    cases x with
    | note n => exact recordKeeps_of_apart hreg happ h n
    | output data => trivial
  | remove path a => exact fun e _ _ => recordKeeps_of_apart hreg happ h _
  | openLog path maxSize a => cases hact
  | clear path => cases hact
  | _ => trivial

theorem along_of_apart (hreg : o.Regular fs) (happ : ¬ o.LogAt fs appLog (fun _ => True)) {l : Life} (h : o.Since fs l.fs)
    {acts : List Act} (hacts : ∀ act ∈ acts, spares act = true) :
    Along (Act.step strerror appLog) (fun l act => o.LogKept strerror appLog l.fs act) l acts :=
  Machine.along_of_inv (I := fun l => o.Since fs l.fs) (fun l act hl => hl.after (act_after l act)) acts l h
    (fun _ hact _ hl => logKept_of_apart hreg happ hl (hacts _ hact))

end Owned

/-- What all commands of one installation have in common. -/
structure Program where
  env : Env
  progname : Str
  logMaxSize : Nat

namespace Program

def dir (p : Program) : Str := sessionDir p.env p.progname

def appLog (p : Program) : Str := join p.dir appLogFileName

def session (p : Program) (name : Str) : Session := .named p.env p.progname p.logMaxSize name

theorem session_sockname (p : Program) {name : Str} (h : '/' ∉ name) : (p.session name).sockname = join p.dir name :=
  if_neg h

end Program

/-- A command on a session, with what the system answers it. -/
inductive Command
  | start (name : Str) (dontfork asks : Bool) (probe : Option Trouble) (a : StartAns) (notes : List Note)
  | clear (name : Str) (trouble : Option Errno) (a : RecordAns)
  | rm (name : Str) (a : RmAns)
  | rmAll (named : Option RecordAns) (socks logs : List Visit) (done : RecordAns)

namespace Command

/-- The session that the command names. -/
def name : Command → Option Str
  | .start name _ _ _ _ _ => some name
  | .clear name _ _ => some name
  | .rm name _ => some name
  | .rmAll _ _ _ _ => none

variable (strerror : Errno → Str) (p : Program)

/-- What the command leaves of the files. -/
def on (fs : Fs) : Command → Fs
  | .start name dontfork asks probe a notes => cmdStart strerror fs (p.session name) dontfork asks probe a notes
  | .clear name trouble a => actsOn strerror p.appLog fs (cmdClear strerror fs (p.session name) trouble a).1
  | .rm name a => actsOn strerror p.appLog fs (rmSingle strerror fs (p.session name) a).1
  | .rmAll named socks logs done => Zatch.rmAll strerror p.dir p.appLog fs named socks logs done

end Command

section
variable {strerror : Errno → Str} {p : Program} {o : Owned} {fs : Fs} {b : Str}

open Owned (LogKept AlongActs kept_trans_iff actsOn_kept_iff actsOn_after)

/-- The names of the session `b`, in the directory. -/
theorem names_join_iff (ho : o.sockname = join p.dir b) (name : Str) :
    o.Names (join p.dir name) ↔ name = b ∨ (o.log ≠ none ∧ name = b ++ ".log".toList) := by
  rw [Owned.Names, ho, logPath_join, os_injective.eq_iff, os_injective.eq_iff, join_inj, join_inj]

theorem names_joinEntry_iff (ho : o.sockname = join p.dir b) (e : OsStr) :
    o.Names (joinEntry p.dir e) ↔ e = os b ∨ (o.log ≠ none ∧ e = os (b ++ ".log".toList)) := by
  rw [Owned.Names, ho, logPath_join, ← joinEntry_os, ← joinEntry_os, joinEntry_inj, joinEntry_inj]

/-- The acts of a `start` keep another session's names unless its socket's name is that of the log, which it clears
away. -/
theorem start_namesKept_iff (strerror : Errno → Str) {sess : Session} {name : Str} (hin : o.In fs)
    (ho : o.sockname = join p.dir b) (hsess : sess.sockname = join p.dir name) (hne : name ≠ b) (dontfork : Bool) (a : StartAns) :
    AlongActs strerror sess.appLog o.NamesKept fs (startActs strerror fs sess dontfork a) ↔
      ¬ (o.log ≠ none ∧ name = b ++ ".log".toList ∧ Clears fs a.listen.probe sess.sockname) := by
  have hlisten : o.NamesKept fs (.listen a.listen sess.sockname) ↔
      ¬ (o.log ≠ none ∧ name = b ++ ".log".toList ∧ Clears fs a.listen.probe sess.sockname) := by
    rw [Owned.NamesKept, ho, logPath_join, hsess, join_inj]
  rw [← hlisten]
  refine ⟨fun h => h.1, fun h => ⟨h, Machine.along_of_forall _ _ (fun act hact l => ?_)⟩⟩
  obtain ⟨x, rfl⟩ | ⟨path, maxSize, rfl⟩ | ⟨rfl, hok⟩ := mem_startActs_tail hact
  · trivial
  · trivial
  · -- a socket that was made is not in the log's place, where the log still is
    rintro ⟨hnames, -⟩
    obtain ⟨i, hi, -⟩ := hin.dir_of_names hnames
    have hkept : ¬ Clears fs a.listen.probe sess.sockname := by
      rw [hsess, names_join_iff ho] at hnames
      exact fun hclears => hlisten.1 h ⟨(hnames.resolve_left hne).1, (hnames.resolve_left hne).2, hclears⟩
    obtain ⟨-, e, he⟩ := listenUnix_of_file hi hkept
    rw [hok] at he
    cases he

/-- Where a session's log would be, another session has its socket when it is named so. -/
theorem names_log_iff (ho : o.sockname = join p.dir b) {name : Str} (hne : name ≠ b) :
    o.Names (os (join p.dir (name ++ ".log".toList))) ↔ b = name ++ ".log".toList := by
  rw [names_join_iff ho, List.append_cancel_right_eq]
  exact ⟨fun h => (h.resolve_right (fun h => hne h.2)).symm, fun h => .inl h.symm⟩

/-- A session's stale socket is removed, which is not another's, and then its log. -/
theorem removes_namesKept_iff (strerror : Errno → Str) (ho : o.sockname = join p.dir b) {name : Str} (hne : name ≠ b)
    {sock : OsStr} (hsock : ¬ o.Names sock) (a a' done : RecordAns) (level : LogLevel) (message : Str) :
    AlongActs strerror p.appLog o.NamesKept fs
        [.remove sock a, .remove (os (join p.dir (name ++ ".log".toList))) a', .note done level message] ↔
      ¬ (b = name ++ ".log".toList ∧ fs.frozen (join p.dir b) = false) := by
  have hfrozen := (removeFileIfExists_after strerror p.appLog fs sock a).frozen_eq
  constructor
  · rintro ⟨-, hsecond, -⟩ ⟨hb, hthawed⟩
    refine hsecond ⟨(names_log_iff ho hne).2 hb, ?_⟩
    rw [← hb]
    exact (congrFun hfrozen _).trans hthawed
  · intro h
    refine ⟨fun hfirst => hsock hfirst.1, fun hsecond => ?_, trivial, trivial⟩
    have hb := (names_log_iff ho hne).1 hsecond.1
    refine h ⟨hb, ?_⟩
    rw [← congrFun hfrozen, hb]
    exact hsecond.2

/-- `rm` removes another session's socket when that is where its own log would be. -/
theorem rm_namesKept_iff {name : Str} (ho : o.sockname = join p.dir b)
    (hlog : o.log ≠ none → ∃ content, fs.stat (logPath o.sockname) = .ok (.regular content))
    (hsess : (p.session name).sockname = join p.dir name) (hne : name ≠ b) (a : RmAns) :
    AlongActs strerror p.appLog o.NamesKept fs (rmSingle strerror fs (p.session name) a).1 ↔
      ¬ (b = name ++ ".log".toList ∧
        (connectSocket fs a.probe (join p.dir name) = .error .econnrefused ∨
          connectSocket fs a.probe (join p.dir name) = .error .enoent) ∧
        fs.frozen (join p.dir b) = false) := by
  rw [rmSingle, hsess]
  cases hconn : connectSocket fs a.probe (join p.dir name) with
  | ok _ => exact iff_of_true ⟨trivial, trivial⟩ (fun h => by simp at h)
  | error err =>
    simp only [Except.error.injEq]
    by_cases href : err = .econnrefused
    · -- what is refused is a stale socket, and so not the log
      have hsock : ¬ o.Names (os (join p.dir name)) := by
        rw [names_join_iff ho]
        rintro (hb | ⟨hhas, hb⟩)
        · exact hne hb
        · obtain ⟨content, hreg⟩ := hlog hhas
          rw [href] at hconn
          have hstale := (connectSocket_refused_iff.1 hconn).2.2.2
          rw [ho, logPath_join, ← hb, hstale] at hreg
          cases hreg
      simp only [href, if_true, true_or, true_and, logPath_join]
      exact removes_namesKept_iff strerror ho hne hsock _ _ _ _ _
    · by_cases hno : err = .enoent
      · have hunlink : ¬ (o.Names (os (join p.dir (name ++ ".log".toList))) ∧
            fs.frozen (os (join p.dir (name ++ ".log".toList))) = false) ↔
            ¬ (b = name ++ ".log".toList ∧ fs.frozen (os (join p.dir b)) = false) := by
          rw [names_log_iff ho hne]
          exact not_congr (and_congr_right (fun hb => by rw [hb]))
        rw [if_neg href, if_pos hno, or_iff_right href, and_iff_right hno, ← hunlink, logPath_join]
        cases (fs.unlink (os (join p.dir (name ++ ".log".toList)))).2 with
        | ok _ => exact and_iff_left ⟨trivial, trivial⟩
        | error e => exact and_iff_left ⟨trivial, trivial⟩
      · simp only [href, hno, if_false, false_or, false_and, and_false, not_false_eq_true, iff_true]
        exact ⟨trivial, trivial⟩

theorem clear_namesKept (sess : Session) (trouble : Option Errno) (a : RecordAns) :
    AlongActs strerror p.appLog o.NamesKept fs (cmdClear strerror fs sess trouble a).1 := by
  have hfails : ∀ (path : Str) (e : Errno), AlongActs strerror p.appLog o.NamesKept fs
      (if e = .enoent then ([], 0) else ([Act.note a .error (path ++ ": ".toList ++ strerror e)], 1) : List Act × Nat).1 := by
    intro path e
    split
    · trivial
    · exact ⟨trivial, trivial⟩
  simp only [cmdClear]
  split
  · exact hfails _ _
  · split
    · exact ⟨trivial, trivial, trivial⟩
    · exact hfails _ _

/-- The entry is no stale socket whose log's name is where another session has its socket, free to be removed. -/
def StaleSpares (p : Program) (b : Str) (fs : Fs) (v : Visit) : Prop :=
  ¬ ∃ name, staleName p.dir fs v = some name ∧ b = name ++ ".log".toList ∧ fs.frozen (join p.dir b) = false

/-- The entry is not another session's socket, taken for an orphaned log and free to be removed. -/
def OrphanSpares (p : Program) (b : Str) (fs : Fs) (v : Visit) : Prop :=
  ¬ ∃ stem, orphanName p.dir fs v = some stem ∧ v.entry = os b ∧ fs.frozen (join p.dir b) = false

/-- What a visit of `rm -a` records, or a removal that fails, does not cut a session's log. -/
def StaleLogKept (strerror : Errno → Str) (p : Program) (o : Owned) (fs : Fs) (v : Visit) : Prop :=
  ∀ name, staleName p.dir fs v = some name →
    AlongActs strerror p.appLog (o.LogKept strerror p.appLog) fs (staleActs p.dir v name)

def OrphanLogKept (strerror : Errno → Str) (p : Program) (o : Owned) (fs : Fs) (v : Visit) : Prop :=
  ∀ stem, orphanName p.dir fs v = some stem →
    AlongActs strerror p.appLog (o.LogKept strerror p.appLog) fs (orphanActs p.dir v stem)

theorem staleName_eq_some {v : Visit} {name : Str} (h : staleName p.dir fs v = some name) :
    v.entry = os name ∧ extension v.entry ≠ some (os "log".toList) ∧ name.head? ≠ some '.' ∧
      connectSocket fs v.probe (join p.dir name) = .error .econnrefused := by
  simp only [staleName] at h
  split at h
  · cases h
  · rename_i hext
    split at h
    · cases h
    · rename_i hdot
      split at h
      · split at h
        · rename_i hkind
          cases h
          cases hstr : toStr (joinEntry p.dir v.entry) with
          | none =>
            rw [hstr] at hkind
            exact absurd rfl (connectSocket_refused_iff.1 hkind.2).2.2.1
          | some t =>
            rw [hstr, Option.getD_some] at hkind
            obtain ⟨dir, name, rfl, hdir, hname⟩ := List.map_eq_append_iff.1 (toStr_eq_some hstr).symm
            have hentry : v.entry = os name := hname.symm
            rw [os_injective hdir, ← join_eq] at hkind
            rw [hentry, toStringLossy_os] at hdot ⊢
            exact ⟨rfl, hentry ▸ hext, hdot, hkind.2⟩
        · cases h
      · cases h

theorem staleStep_kept_iff (hin : o.In fs) (ho : o.sockname = join p.dir b) (v : Visit) :
    o.Kept fs (staleStep strerror p.dir p.appLog fs v).1 ↔ StaleSpares p b fs v ∧ StaleLogKept strerror p o fs v := by
  rw [staleStep, StaleSpares, StaleLogKept]
  cases hname : staleName p.dir fs v with
  | none => exact iff_of_true (.refl o fs) ⟨fun h => by simp at h, fun name h => by cases h⟩
  | some name =>
    obtain ⟨hentry, hext, hdot, hconn⟩ := staleName_eq_some hname
    -- the session itself is live, and its log has the extension
    have hne : name ≠ b := by
      intro hb'
      obtain ⟨j, hj, hnode⟩ := hin.socket
      have hstat := FileSystem.Fs.stat_of_socket hj hnode
      rw [ho, ← hb', (connectSocket_refused_iff.1 hconn).2.2.2] at hstat
      cases hstat
    have hsock : ¬ o.Names (joinEntry p.dir v.entry) := by
      rw [names_joinEntry_iff ho, hentry, os_injective.eq_iff, os_injective.eq_iff]
      rintro (h | ⟨-, h⟩)
      · exact hne h
      · by_cases hb : b = []
        · exact hdot (by rw [h, hb]; rfl)
        · exact hext (by rw [hentry, h, extension, rsplitFileAtDot_log hb])
    simp only [Option.some.injEq, exists_eq_left', forall_eq']
    rw [actsOn_kept_iff _ _ hin, staleActs, removes_namesKept_iff strerror ho hne hsock]

theorem orphanStep_kept_iff (hin : o.In fs) (ho : o.sockname = join p.dir b) (v : Visit) :
    o.Kept fs (orphanStep strerror p.dir p.appLog fs v).1 ↔ OrphanSpares p b fs v ∧ OrphanLogKept strerror p o fs v := by
  rw [orphanStep, OrphanSpares, OrphanLogKept]
  cases hname : orphanName p.dir fs v with
  | none => exact iff_of_true (.refl o fs) ⟨fun h => by simp at h, fun name h => by cases h⟩
  | some stem =>
    -- the log of a session that has its socket is no orphan
    have hlog : v.entry ≠ os (b ++ ".log".toList) := by
      intro hentry
      have hb : b ≠ [] := by
        intro hb
        have hext : extension v.entry = none := by
          rw [hentry, hb]
          decide
        simp [orphanName, hext] at hname
      have hext : extension v.entry = some (os "log".toList) := by rw [hentry, extension, rsplitFileAtDot_log hb]
      have hstem : toStringLossy (fileStem v.entry) = b := by
        rw [hentry, fileStem, rsplitFileAtDot_log hb, toStringLossy_os]
      obtain ⟨j, hj, hnode⟩ := hin.socket
      have hstat := FileSystem.Fs.stat_of_socket hj hnode
      rw [ho] at hstat
      simp [orphanName, hext, hstem, hstat] at hname
    have hsock : o.Names (joinEntry p.dir v.entry) ↔ v.entry = os b := by
      rw [names_joinEntry_iff ho]
      exact or_iff_left (fun h => hlog h.2)
    have hnames : AlongActs strerror p.appLog o.NamesKept fs (orphanActs p.dir v stem) ↔
        ¬ (v.entry = os b ∧ fs.frozen (join p.dir b) = false) := by
      have hhead : AlongActs strerror p.appLog o.NamesKept fs (orphanActs p.dir v stem) ↔
          ¬ (o.Names (joinEntry p.dir v.entry) ∧ fs.frozen (joinEntry p.dir v.entry) = false) :=
        and_iff_left ⟨trivial, trivial⟩
      rw [hhead, hsock]
      exact not_congr (and_congr_right (fun hentry => by rw [hentry, joinEntry_os]))
    simp only [Option.some.injEq, exists_eq_left', forall_eq']
    rw [actsOn_kept_iff _ _ hin, hnames]

/-- One of the two goings through the directory. -/
theorem visits_kept_iff {step : Fs → Visit → Fs × List Str} {P : Fs → Visit → Prop}
    (hafter : ∀ fs v, After fs (step fs v).1)
    (hstep : ∀ fs v, o.In fs → (o.Kept fs (step fs v).1 ↔ P fs v)) (hin : o.In fs) (visits : List Visit) :
    o.Kept fs (run step fs visits).1 ↔ Along step P fs visits := by
  have hrun := Machine.inv_run_iff (I := o.Kept fs) (J := After fs) (P := P)
    (fun fs' v h => h.trans (hafter fs' v))
    (fun fs' v h hkept => ((kept_trans_iff hin h.next_le h.cuts_le (hafter fs' v)).1 hkept).1)
    (fun fs' v h hkept => by
      rw [kept_trans_iff hin h.next_le h.cuts_le (hafter fs' v), and_iff_right hkept]
      exact hstep fs' v (hin.kept h hkept))
    visits fs (.refl fs)
  rw [← hrun]
  exact and_iff_right (Owned.Kept.refl o fs)

theorem staleStep_after (strerror : Errno → Str) (p : Program) (fs : Fs) (v : Visit) :
    After fs (staleStep strerror p.dir p.appLog fs v).1 := by
  rw [staleStep]
  split
  · exact actsOn_after _ _ _ _
  · exact .refl fs

theorem orphanStep_after (strerror : Errno → Str) (p : Program) (fs : Fs) (v : Visit) :
    After fs (orphanStep strerror p.dir p.appLog fs v).1 := by
  rw [orphanStep]
  split
  · exact actsOn_after _ _ _ _
  · exact .refl fs

theorem visits_after {step : Fs → Visit → Fs × List Str} (hafter : ∀ fs v, After fs (step fs v).1) (fs : Fs)
    (visits : List Visit) : After fs (run step fs visits).1 :=
  Machine.run_inv (I := After fs) (fun fs' v h => h.trans (hafter fs' v)) visits fs (.refl fs)

end

/-- The session is live: its socket is in its place, with its daemon behind it. -/
def Live (fs : Fs) (sockname : Str) : Prop := ∃ j, fs.dir sockname = some j ∧ fs.node j = .socket true

theorem logFile_eq_some {fs : Fs} {sockname : Str} {i : Nat} (h : logFile fs sockname = some i) :
    fs.inode (logPath sockname) = .ok i ∧ ∃ content, fs.node i = .regular content := by
  rw [logFile] at h
  split at h
  · split at h <;> cases h
    exact ⟨‹_›, _, ‹_›⟩
  · cases h

theorem Owned.of_in {fs : Fs} {sockname : Str} (h : Live fs sockname) : (Owned.of fs sockname).In fs where
  socket := h
  log i hi := by
    obtain ⟨hinode, content, hnode⟩ := logFile_eq_some hi
    obtain ⟨q, -, hq⟩ := FileSystem.Fs.inode_eq_iff.1 hinode
    exact ⟨fs.dir_lt q i hq, FileSystem.Fs.dir_of_inode hinode (by rw [hnode]; rfl)⟩

theorem Owned.of_log_stat {fs : Fs} {sockname : Str} (h : (Owned.of fs sockname).log ≠ none) :
    ∃ content, fs.stat (logPath sockname) = .ok (.regular content) := by
  obtain ⟨i, hi⟩ := Option.ne_none_iff_exists'.1 h
  obtain ⟨hinode, content, hnode⟩ := logFile_eq_some hi
  refine ⟨content, ?_⟩
  rw [FileSystem.Fs.stat, hinode, ← hnode]
  rfl

/-- The files of a session are untouched: its socket and its log are in their places, and the log was not truncated. -/
def Untouched (before after : Fs) (sockname : Str) : Prop := (Owned.of before sockname).Kept before after

namespace Command

variable (strerror : Errno → Str) (p : Program)

/-- `rm -a` where it first goes through the directory. -/
def afterWarning (fs : Fs) (named : Option RecordAns) : Fs := actsOn strerror p.appLog fs (warnedActs named)

/-- `rm -a` where it goes through the directory again. -/
def afterStale (fs : Fs) (named : Option RecordAns) (socks : List Visit) : Fs × List Str :=
  run (staleStep strerror p.dir p.appLog) (afterWarning strerror p fs named) socks

def afterOrphans (fs : Fs) (named : Option RecordAns) (socks logs : List Visit) : Fs × List Str :=
  run (orphanStep strerror p.dir p.appLog) (afterStale strerror p fs named socks).1 logs

/-- **The command removes none of the names** of the session `b`. -/
def SparesNames (fs : Fs) (b : Str) : Command → Prop
  | .start name _ asks probe a _ =>
    ¬ (¬ (asks = true ∧ connectSocket fs probe (join p.dir name) = .ok ()) ∧
      logFile fs (join p.dir b) ≠ none ∧ name = b ++ ".log".toList ∧ Clears fs a.listen.probe (join p.dir name))
  | .clear _ _ _ => True
  | .rm name a =>
    ¬ (b = name ++ ".log".toList ∧
      (connectSocket fs a.probe (join p.dir name) = .error .econnrefused ∨
        connectSocket fs a.probe (join p.dir name) = .error .enoent) ∧
      fs.frozen (join p.dir b) = false)
  | .rmAll named socks logs _ =>
    Along (staleStep strerror p.dir p.appLog) (StaleSpares p b) (afterWarning strerror p fs named) socks ∧
    Along (orphanStep strerror p.dir p.appLog) (OrphanSpares p b) (afterStale strerror p fs named socks).1 logs

/-- No act of the command cuts back, or empties, the file that is `b`'s log. -/
def KeepsLog (fs : Fs) (b : Str) (c : Command) : Prop :=
  let o := Owned.of fs (join p.dir b)
  let kept (fs : Fs) (acts : List Act) : Prop :=
    Owned.AlongActs strerror p.appLog (o.LogKept strerror p.appLog) fs acts
  match c with
  | .start name dontfork asks probe a notes =>
    let sess := p.session name
    if asks = true ∧ connectSocket fs probe sess.sockname = .ok () then kept fs (notes.map (fun n => .life (.note n)))
    else kept fs (startActs strerror fs sess dontfork a) ∧
      kept (sessionDaemonMain strerror fs sess dontfork a).1 (notes.map (fun n => .life (.note n)))
  | .clear name trouble a => kept fs (cmdClear strerror fs (p.session name) trouble a).1
  | .rm name a => kept fs (rmSingle strerror fs (p.session name) a).1
  | .rmAll named socks logs done =>
    kept fs (warnedActs named) ∧
    Along (staleStep strerror p.dir p.appLog) (StaleLogKept strerror p o) (afterWarning strerror p fs named) socks ∧
    Along (orphanStep strerror p.dir p.appLog) (OrphanLogKept strerror p o) (afterStale strerror p fs named socks).1 logs ∧
    kept (afterOrphans strerror p fs named socks logs).1 [.note done .info (rmAllMessage
      ((afterStale strerror p fs named socks).2.length + (afterOrphans strerror p fs named socks logs).2.length))]

variable {strerror p} {fs : Fs} {b : Str}

open Owned (kept_trans_iff actsOn_kept_iff actsOn_after)

theorem notes_namesKept (o : Owned) (appLog : Str) (fs : Fs) (notes : List Note) :
    Owned.AlongActs strerror appLog o.NamesKept fs (notes.map (fun n => .life (.note n))) := by
  apply Machine.along_of_forall
  intro act hact l
  obtain ⟨n, -, rfl⟩ := List.mem_map.1 hact
  trivial

/-- Records keep a session's files when none of them cuts its log. -/
theorem notes_kept_iff (strerror : Errno → Str) {o : Owned} (appLog : Str) (hin : o.In fs) (notes : List Note) :
    o.Kept fs (actsOn strerror appLog fs (notes.map (fun n => .life (.note n)))) ↔
      Owned.AlongActs strerror appLog (o.LogKept strerror appLog) fs (notes.map (fun n => .life (.note n))) := by
  rw [actsOn_kept_iff _ _ hin, and_iff_right (notes_namesKept o appLog fs notes)]

/-- A listener that goes is not another session's. -/
theorem in_listenAt {o : Owned} {path : OsStr} (hin : o.In fs)
    (hother : ∀ j, fs.dir o.sockname = some j → fs.dir path ≠ some j) : o.In (listenAt fs path false) := by
  rw [listenAt]
  split
  · rename_i i hi
    constructor
    · obtain ⟨j, hj, hnode⟩ := hin.socket
      have hij : j ≠ i := fun h => hother j hj (h ▸ hi)
      exact ⟨j, hj, (FileSystem.Fs.setNode_node_of_ne _ _ hij).trans hnode⟩
    · intro l hl
      obtain ⟨hlt, k, hk, hnode⟩ := hin.log l hl
      refine ⟨hlt, k, hk, ?_⟩
      by_cases hki : k = i
      · rw [hki, FileSystem.Fs.setNode_node_self]
        rfl
      · rw [FileSystem.Fs.setNode_node_of_ne _ _ hki, hnode]
  · exact hin

/-- Where a start-up has finished, a session's files are what its acts have left of them. -/
theorem start_life (strerror : Errno → Str) {o : Owned} (hin : o.In fs) (sess : Session) (dontfork : Bool) (a : StartAns) :
    fs.next ≤ (sessionDaemonMain strerror fs sess dontfork a).1.next ∧
    (∀ i, fs.cuts i ≤ (sessionDaemonMain strerror fs sess dontfork a).1.cuts i) ∧
    (o.Kept fs (sessionDaemonMain strerror fs sess dontfork a).1 ↔
      o.Kept fs (actsOn strerror sess.appLog fs (startActs strerror fs sess dontfork a))) ∧
    (o.Kept fs (sessionDaemonMain strerror fs sess dontfork a).1 →
      o.In (sessionDaemonMain strerror fs sess dontfork a).1) := by
  have hafter := actsOn_after strerror sess.appLog fs
    (startActs strerror fs sess dontfork a)
  rcases sessionDaemonMain_acts strerror fs sess dontfork a with h | ⟨⟨stream, hok⟩, h⟩
  · rw [h]
    exact ⟨hafter.next_le, hafter.cuts_le, Iff.rfl, hin.kept hafter⟩
  · rw [h]
    generalize actsOn strerror sess.appLog fs (startActs strerror fs sess dontfork a) = fs' at hafter
    have hkept : o.Kept fs (listenAt fs' sess.sockname false) ↔ o.Kept fs fs' := by
      constructor
      · rintro ⟨hsock, hlog, hwhole⟩
        simp only [listenAt_dir, listenAt_cuts] at hsock hlog hwhole
        exact ⟨hsock, hlog, hwhole⟩
      · rintro ⟨hsock, hlog, hwhole⟩
        constructor <;> simpa only [listenAt_dir, listenAt_cuts]
    refine ⟨?_, ?_, hkept, fun h' => ?_⟩
    · rw [listenAt_next]
      exact hafter.next_le
    · rw [listenAt_cuts]
      exact hafter.cuts_le
    · have h' := hkept.1 h'
      refine in_listenAt (hin.kept hafter h') (fun j hj hpath => ?_)
      -- the socket would be the other session's, and the start-up would have found it live
      obtain ⟨i, hi, hnode⟩ := hin.socket
      rw [h'.socket, hi, Option.some_inj] at hj
      subst hj
      have hpath := hafter.dir_of_old _ i hpath (fs.dir_lt _ i hi)
      have hclears : ¬ Clears fs a.listen.probe sess.sockname := by
        rintro ⟨hconn, -⟩
        obtain ⟨-, -, -, kind, hstat, hdead⟩ := connect_refused_iff.1 hconn
        rw [FileSystem.Fs.stat_of_socket hpath hnode, Except.ok.injEq] at hstat
        exact hdead hstat.symm
      obtain ⟨-, e, he⟩ := listenUnix_of_file hpath hclears
      rw [hok] at he
      cases he

theorem start_kept_iff (name : Str) (dontfork asks : Bool) (probe : Option Trouble) (a : StartAns) (notes : List Note)
    (hlive : Live fs (join p.dir b)) (hsess : (p.session name).sockname = join p.dir name) (hne : name ≠ b) :
    Untouched fs (cmdStart strerror fs (p.session name) dontfork asks probe a notes) (join p.dir b) ↔
      (Command.start name dontfork asks probe a notes).SparesNames strerror p fs b ∧
      (Command.start name dontfork asks probe a notes).KeepsLog strerror p fs b := by
  have hin := Owned.of_in hlive
  have happ : (p.session name).appLog = p.appLog := rfl
  simp only [cmdStart, SparesNames, KeepsLog, hsess, happ, Untouched]
  by_cases hprompt : asks = true ∧ connectSocket fs probe (join p.dir name) = .ok ()
  · rw [if_pos hprompt, if_pos hprompt, notes_kept_iff strerror _ hin]
    exact (and_iff_right (fun h => h.1 hprompt)).symm
  · rw [if_neg hprompt, if_neg hprompt]
    have hacts := actsOn_kept_iff strerror p.appLog hin
      (startActs strerror fs (p.session name) dontfork a)
    have hafter := actsOn_after strerror p.appLog fs
      (startActs strerror fs (p.session name) dontfork a)
    have hnames := start_namesKept_iff strerror hin rfl hsess hne dontfork a
    rw [happ] at hnames
    obtain ⟨hnext, hcuts, hkept, hlater⟩ :=
      start_life strerror hin (p.session name) dontfork a
    have hnotes : (Owned.of fs (join p.dir b)).Kept fs (sessionDaemonMain strerror fs (p.session name) dontfork a).1 → _ :=
      fun h => notes_kept_iff strerror p.appLog (hlater h) notes
    rw [kept_trans_iff hin hnext hcuts (actsOn_after _ _ _ _), and_congr_right hnotes, hkept, happ, hacts, hnames, hsess,
      and_iff_right hprompt, and_assoc]
    rfl

theorem rmAll_kept_iff (named : Option RecordAns) (socks logs : List Visit) (done : RecordAns)
    (hlive : Live fs (join p.dir b)) :
    Untouched fs (Zatch.rmAll strerror p.dir p.appLog fs named socks logs done) (join p.dir b) ↔
      (Command.rmAll named socks logs done).SparesNames strerror p fs b ∧
      (Command.rmAll named socks logs done).KeepsLog strerror p fs b := by
  have hin := Owned.of_in hlive
  have ho : (Owned.of fs (join p.dir b)).sockname = join p.dir b := rfl
  simp only [Zatch.rmAll, SparesNames, KeepsLog, Untouched, afterOrphans, afterStale, afterWarning]
  generalize Owned.of fs (join p.dir b) = o at hin ho
  have hwarned := actsOn_kept_iff strerror p.appLog hin (warnedActs named)
  have hwarnedNames : Owned.AlongActs strerror p.appLog o.NamesKept fs (warnedActs named) := by
    cases named with
    | some a => exact ⟨trivial, trivial⟩
    | none => trivial
  rw [and_iff_right hwarnedNames] at hwarned
  have hafterWarned := actsOn_after strerror p.appLog fs (warnedActs named)
  generalize actsOn strerror p.appLog fs (warnedActs named) = warned at *
  have hstaleAfter := visits_after (staleStep_after strerror p) warned socks
  have hafterStale := hafterWarned.trans hstaleAfter
  have hstale : o.Kept fs warned → _ := fun h =>
    visits_kept_iff (staleStep_after strerror p) (fun fs v hin => staleStep_kept_iff hin ho v)
      (hin.kept hafterWarned h) socks
  generalize run (staleStep strerror p.dir p.appLog) warned socks = stale at *
  have horphansAfter := visits_after (orphanStep_after strerror p) stale.1 logs
  have hafterOrphans := hafterStale.trans horphansAfter
  have horphans : o.Kept fs stale.1 → _ := fun h =>
    visits_kept_iff (orphanStep_after strerror p) (fun fs v hin => orphanStep_kept_iff hin ho v)
      (hin.kept hafterStale h) logs
  generalize run (orphanStep strerror p.dir p.appLog) stale.1 logs = orphaned at *
  generalize rmAllMessage (stale.2.length + orphaned.2.length) = message
  have hdone : o.Kept fs orphaned.1 → _ := fun h =>
    (actsOn_kept_iff strerror p.appLog (hin.kept hafterOrphans h)
      [.note done .info message]).trans (and_iff_right ⟨trivial, trivial⟩)
  rw [kept_trans_iff hin hafterOrphans.next_le hafterOrphans.cuts_le (actsOn_after _ _ _ _), and_congr_right hdone,
    kept_trans_iff hin hafterStale.next_le hafterStale.cuts_le horphansAfter, and_congr_right horphans,
    kept_trans_iff hin hafterWarned.next_le hafterWarned.cuts_le hstaleAfter, and_congr_right hstale, hwarned,
    Machine.along_and, Machine.along_and]
  constructor
  · rintro ⟨⟨⟨hw, hs, hsLog⟩, ho, hoLog⟩, hd⟩
    exact ⟨⟨hs, ho⟩, hw, hsLog, hoLog, hd⟩
  · rintro ⟨⟨hs, ho⟩, hw, hsLog, hoLog, hd⟩
    exact ⟨⟨⟨hw, hs, hsLog⟩, ho, hoLog⟩, hd⟩

/-- A command leaves a live session's files untouched, whatever is in the directory and whatever names the two have, exactly
when it removes none of its names and none of its acts cuts its log. -/
theorem command_kept_iff (strerror : Errno → Str) (p : Program) (fs : Fs) (c : Command) (b : Str)
    (hlive : Live fs (join p.dir b)) (hc : ∀ name, c.name = some name → '/' ∉ name ∧ name ≠ b) :
    Untouched fs (c.on strerror p fs) (join p.dir b) ↔ c.SparesNames strerror p fs b ∧ c.KeepsLog strerror p fs b := by
  have hin := Owned.of_in hlive
  cases c with
  | start name dontfork asks probe a notes =>
    obtain ⟨hslash, hne⟩ := hc name rfl
    exact start_kept_iff name dontfork asks probe a notes hlive (p.session_sockname hslash) hne
  | clear name trouble a =>
    rw [Untouched, on, actsOn_kept_iff _ _ hin]
    exact and_congr_left (fun _ => iff_of_true (clear_namesKept _ _ _) trivial)
  | rm name a =>
    obtain ⟨hslash, hne⟩ := hc name rfl
    rw [Untouched, on, actsOn_kept_iff _ _ hin,
      rm_namesKept_iff (o := Owned.of fs (join p.dir b)) rfl Owned.of_log_stat (p.session_sockname hslash) hne a]
    rfl
  | rmAll named socks logs done => exact rmAll_kept_iff named socks logs done hlive

/-! ## The log, by what the directory holds before -/

/-- A start gets to open its log once it has its socket, and its child. -/
def GetsToLog (fs : Fs) (path : Str) (dontfork : Bool) (a : StartAns) : Prop :=
  Binds fs a.listen path ∧ a.listen.setup path = none ∧ (dontfork = true ∨ a.fork = none)

/-- **The command does not come to `b`'s log by the log of the session that it names**: a start that gets to open that, or a
`clear`, does not find `b`'s file there, through links, of a size that it cuts. -/
def SparesLog (p : Program) (fs : Fs) (b : Str) : Command → Prop
  | .start name dontfork asks probe a _ =>
    ¬ (¬ (asks = true ∧ connectSocket fs probe (join p.dir name) = .ok ()) ∧ GetsToLog fs (join p.dir name) dontfork a ∧
      a.logOpens = true ∧ (Owned.of fs (join p.dir b)).LogAt (cleared fs a.listen.probe (join p.dir name)) (logPath (join p.dir name))
        (fun size => p.logMaxSize < size ∧ p.logMaxSize ≠ 0 ∧ a.logGot ≠ 0))
  | .clear name trouble _ =>
    ¬ (trouble = none ∧ (Owned.of fs (join p.dir b)).LogAt fs (logPath (join p.dir name)) (fun _ => True))
  | .rm _ _ => True
  | .rmAll _ _ _ _ => True

/-- The application log does not lead to `b`'s log. -/
def LogsApart (p : Program) (fs : Fs) (b : Str) : Prop := ¬ (Owned.of fs (join p.dir b)).LogAt fs p.appLog (fun _ => True)

theorem of_regular (fs : Fs) (sockname : Str) : (Owned.of fs sockname).Regular fs := fun _ hi => (logFile_eq_some hi).2

theorem logAt_make_iff {o : Owned} {q : OsStr} (hq : fs.dir q = none) (hold : ∀ i, o.log = some i → i < fs.next)
    {listening : Bool} {path : Str} {P : Nat → Prop} : o.LogAt (fs.make q (.socket listening)) path P ↔ o.LogAt fs path P := by
  have hnode : ∀ i, o.log = some i → (fs.make q (.socket listening)).node i = fs.node i :=
    fun i hi => if_neg (Nat.ne_of_lt (hold i hi))
  constructor
  · rintro ⟨i, content, hi, hinode, hreg, hP⟩
    rw [hnode i hi] at hreg
    refine ⟨i, content, hi, ?_, hreg, hP⟩
    exact (FileSystem.Fs.make_inode_iff hq (fun _ h => by cases h) (hold i hi) (fun _ h => by rw [hreg] at h; cases h)).1 hinode
  · rintro ⟨i, content, hi, hinode, hreg, hP⟩
    refine ⟨i, content, hi, ?_, (hnode i hi).trans hreg, hP⟩
    exact (FileSystem.Fs.make_inode_iff hq (fun _ h => by cases h) (hold i hi) (fun _ h => by rw [hreg] at h; cases h)).2 hinode

/-- **The acts of a start**: it opens its log right after it has its socket, if it gets there. -/
theorem startActs_cases (strerror : Errno → Str) (fs : Fs) (sess : Session) (dontfork : Bool) (a : StartAns) :
    (GetsToLog fs sess.sockname dontfork a ∧ ∃ rest : List Act, (∀ act ∈ rest, Owned.spares act = true) ∧
      startActs strerror fs sess dontfork a = .listen a.listen sess.sockname ::
        ((if 0 < sess.logMaxSize then [.openLog (logPath sess.sockname) sess.logMaxSize a] else []) ++ rest)) ∨
    (¬ GetsToLog fs sess.sockname dontfork a ∧ ∀ act ∈ startActs strerror fs sess dontfork a, Owned.spares act = true) := by
  by_cases hlisten : Binds fs a.listen sess.sockname ∧ a.listen.setup sess.sockname = none
  · obtain ⟨hb, hsetup⟩ := hlisten
    have hok : (listenUnix fs a.listen sess.sockname).2 = .ok () := by rw [listenUnix_of_binds sess.sockname_ne hb, hsetup]
    cases hfork : (if dontfork then none else a.fork) with
    | none =>
      refine .inl ⟨⟨hb, hsetup, ?_⟩, _, ?_, by simp only [startActs, hok, hfork]; rfl⟩
      · cases dontfork with
        | true => exact .inl rfl
        | false => exact .inr hfork
      · intro act hact
        split at hact
        · rcases List.mem_append.1 hact with hlife | hend
          · obtain ⟨x, -, rfl⟩ := List.mem_map.1 hlife
            rfl
          · split at hend
            · cases hend
            · simp only [List.mem_cons, List.not_mem_nil, or_false] at hend
              rcases hend with rfl | rfl <;> rfl
        · rw [List.mem_singleton.1 hact]
          rfl
    | some err =>
      refine .inr ⟨fun hgets => ?_, fun act hact => ?_⟩
      · rcases hgets.2.2 with hdont | hnone
        · rw [hdont, if_pos rfl] at hfork
          cases hfork
        · rw [hnone, ite_self] at hfork
          cases hfork
      · simp only [startActs, hok, hfork, List.mem_cons, List.not_mem_nil, or_false] at hact
        rcases hact with rfl | rfl | rfl <;> rfl
  · have hfail : ∃ e, (listenUnix fs a.listen sess.sockname).2 = .error e := by
      by_cases hb : Binds fs a.listen sess.sockname
      · obtain ⟨e, he⟩ := Option.ne_none_iff_exists'.1 (fun hnone => hlisten ⟨hb, hnone⟩)
        exact ⟨e, by rw [listenUnix_of_binds sess.sockname_ne hb, he]⟩
      · obtain ⟨e, he⟩ := listenUnix_of_not_binds sess.sockname_ne hb
        exact ⟨e, by rw [he]⟩
    obtain ⟨e, he⟩ := hfail
    refine .inr ⟨fun hgets => hlisten ⟨hgets.1, hgets.2.1⟩, fun act hact => ?_⟩
    simp only [startActs, he, List.mem_cons, List.not_mem_nil, or_false] at hact
    rcases hact with rfl | rfl <;> rfl

/-- A start comes to another session's log by its own, or by the application log. -/
theorem startActs_logKept {o : Owned} (hin : o.In fs) {appLog : Str} (sess : Session) (dontfork : Bool) (a : StartAns) :
    let own := GetsToLog fs sess.sockname dontfork a ∧ a.logOpens = true ∧
      o.LogAt (cleared fs a.listen.probe sess.sockname) (logPath sess.sockname)
        (fun size => sess.logMaxSize < size ∧ sess.logMaxSize ≠ 0 ∧ a.logGot ≠ 0)
    let kept := Owned.AlongActs strerror appLog (o.LogKept strerror appLog) fs (startActs strerror fs sess dontfork a)
    (kept → ¬ own) ∧ (o.Regular fs → ¬ o.LogAt fs appLog (fun _ => True) → ¬ own → kept) := by
  intro own kept
  rcases startActs_cases strerror fs sess dontfork a with ⟨hgets, rest, hrest, hacts⟩ | ⟨hno, hacts⟩
  · have hfree := cleared_dir_eq_none_iff.2 hgets.1.2.2
    have hold : ∀ i, o.log = some i → i < (cleared fs a.listen.probe sess.sockname).next := by
      intro i hi
      rw [cleared_next]
      exact (hin.log i hi).1
    have hlisten : (listenUnix fs a.listen sess.sockname).1 =
        (cleared fs a.listen.probe sess.sockname).make sess.sockname (.socket true) := by
      rw [listenUnix_of_binds sess.sockname_ne hgets.1, hgets.2.1]
    have hat : ∀ P, o.LogAt ((cleared fs a.listen.probe sess.sockname).make sess.sockname (.socket true))
        (logPath sess.sockname) P ↔ o.LogAt (cleared fs a.listen.probe sess.sockname) (logPath sess.sockname) P :=
      fun _ => logAt_make_iff hfree hold
    rw [← hlisten] at hat
    have hsince := hin.since.after (listenUnix_after fs a.listen sess.sockname)
    have hkept : kept ↔ Along (Act.step strerror appLog) (fun l act => o.LogKept strerror appLog l.fs act)
        ⟨(listenUnix fs a.listen sess.sockname).1, none⟩
        ((if 0 < sess.logMaxSize then [.openLog (logPath sess.sockname) sess.logMaxSize a] else []) ++ rest) := by
      show Owned.AlongActs _ _ _ fs (startActs strerror fs sess dontfork a) ↔ _
      rw [hacts]
      exact and_iff_right trivial
    rw [hkept]
    by_cases hmax : 0 < sess.logMaxSize
    · rw [if_pos hmax]
      constructor
      · rintro ⟨hopen, -⟩ ⟨-, hopens, hcut⟩
        exact hopen ⟨hopens, (hat _).2 hcut⟩
      · intro hreg happ hown
        refine ⟨fun hcut => hown ⟨hgets, hcut.1, (hat _).1 hcut.2⟩, ?_⟩
        exact Owned.along_of_apart hreg happ (hsince.after (openLog_after _ _ _ _)) hrest
    · rw [if_neg hmax]
      constructor
      · rintro - ⟨-, -, i, content, -, -, -, -, hne, -⟩
        omega
      · exact fun hreg happ _ => Owned.along_of_apart hreg happ hsince hrest
  · exact ⟨fun _ hown => hno hown.1, fun hreg happ _ => Owned.along_of_apart hreg happ hin.since hacts⟩

theorem clear_logKept {o : Owned} (hin : o.In fs) {appLog : Str} (sess : Session) (trouble : Option Errno) (a : RecordAns) :
    let own := trouble = none ∧ o.LogAt fs (logPath sess.sockname) (fun _ => True)
    let kept := Owned.AlongActs strerror appLog (o.LogKept strerror appLog) fs (cmdClear strerror fs sess trouble a).1
    (kept → ¬ own) ∧ (o.Regular fs → ¬ o.LogAt fs appLog (fun _ => True) → ¬ own → kept) := by
  intro own kept
  have hfails : o.Regular fs → ¬ o.LogAt fs appLog (fun _ => True) → ∀ e : Errno,
      Owned.AlongActs strerror appLog (o.LogKept strerror appLog) fs
        (if e = .enoent then ([], 0) else ([Act.note a .error (logPath sess.sockname ++ ": ".toList ++ strerror e)], 1) :
          List Act × Nat).1 := by
    intro hreg happ e
    refine Owned.along_of_apart hreg happ hin.since (fun act hact => ?_)
    split at hact
    · cases hact
    · rw [List.mem_singleton.1 hact]
      rfl
  cases htrouble : trouble with
  | some e =>
    refine ⟨fun _ hown => (by rw [hown.1] at htrouble; cases htrouble), fun hreg happ _ => ?_⟩
    simp only [kept, cmdClear, htrouble]
    exact hfails hreg happ e
  | none =>
    cases hopen : fs.openFile false (logPath sess.sockname) with
    | ok opened =>
      have hkept : kept ↔ ¬ o.LogAt fs (logPath sess.sockname) (fun _ => True) ∧
          Along (Act.step strerror appLog) (fun l act => o.LogKept strerror appLog l.fs act)
            ⟨clearFile fs (logPath sess.sockname), none⟩
            [.note a .info ("session '".toList ++ sess.shortname ++ "' log cleared".toList)] := by
        simp only [kept, cmdClear, htrouble, hopen]
        exact Iff.rfl
      rw [hkept]
      refine ⟨fun h hown => h.1 hown.2, fun hreg happ hown => ⟨fun hat => hown ⟨htrouble, hat⟩, ?_⟩⟩
      refine Owned.along_of_apart hreg happ (hin.since.after (clearFile_after fs _)) (fun act hact => ?_)
      rw [List.mem_singleton.1 hact]
      rfl
    | error e =>
      refine ⟨?_, fun hreg happ _ => ?_⟩
      · rintro - ⟨-, i, content, -, hinode, hnode, -⟩
        exact FileSystem.Fs.not_regular_of_openFile (P := fun _ => True) hopen ⟨hinode, content, hnode, trivial⟩
      · simp only [kept, cmdClear, htrouble, hopen]
        exact hfails hreg happ _

theorem rmSingle_spares (fs : Fs) (sess : Session) (a : RmAns) :
    ∀ act ∈ (rmSingle strerror fs sess a).1, Owned.spares act = true := by
  intro act hact
  unfold rmSingle at hact
  split at hact
  · rw [List.mem_singleton.1 hact]
    rfl
  · split at hact
    · simp only [List.mem_cons, List.not_mem_nil, or_false] at hact
      rcases hact with rfl | rfl | rfl <;> rfl
    · split at hact
      · split at hact
        all_goals
          simp only [List.mem_cons, List.not_mem_nil, or_false] at hact
          rcases hact with rfl | rfl <;> rfl
      · rw [List.mem_singleton.1 hact]
        rfl

/-- **The two goings of an `rm -a`** come to a session's log only by the application log. -/
theorem rmAll_logKept {o : Owned} (hreg : o.Regular fs) (hin : o.In fs) (happ : ¬ o.LogAt fs p.appLog (fun _ => True))
    (named : Option RecordAns) (socks logs : List Visit) :
    Owned.AlongActs strerror p.appLog (o.LogKept strerror p.appLog) fs (warnedActs named) ∧
    Along (staleStep strerror p.dir p.appLog) (StaleLogKept strerror p o) (afterWarning strerror p fs named) socks ∧
    Along (orphanStep strerror p.dir p.appLog) (OrphanLogKept strerror p o) (afterStale strerror p fs named socks).1 logs ∧
    o.Since fs (afterOrphans strerror p fs named socks logs).1 := by
  have hwarned := hin.since.after (actsOn_after strerror p.appLog fs (warnedActs named))
  have hstale := hwarned.after (visits_after (staleStep_after strerror p) (afterWarning strerror p fs named) socks)
  have horphans := hstale.after
    (visits_after (orphanStep_after strerror p) (afterStale strerror p fs named socks).1 logs)
  refine ⟨Owned.along_of_apart hreg happ hin.since (fun act hact => ?_), ?_, ?_, horphans⟩
  · cases named with
    | some a =>
      rw [List.mem_singleton.1 hact]
      rfl
    | none => cases hact
  · apply Machine.along_of_inv (fun fs' v h => h.after (staleStep_after strerror p fs' v)) socks _ hwarned
    intro v _ fs' h name _
    refine Owned.along_of_apart hreg happ h (fun act hact => ?_)
    simp only [staleActs, List.mem_cons, List.not_mem_nil, or_false] at hact
    rcases hact with rfl | rfl | rfl <;> rfl
  · apply Machine.along_of_inv (fun fs' v h => h.after (orphanStep_after strerror p fs' v)) logs _ hstale
    intro v _ fs' h stem _
    refine Owned.along_of_apart hreg happ h (fun act hact => ?_)
    simp only [orphanActs, List.mem_cons, List.not_mem_nil, or_false] at hact
    rcases hact with rfl | rfl <;> rfl

/-- What a start leaves has led to another's log before. -/
theorem start_since (strerror : Errno → Str) {o : Owned} (hin : o.In fs) (sess : Session) (dontfork : Bool) (a : StartAns) :
    o.Since fs (sessionDaemonMain strerror fs sess dontfork a).1 := by
  have hacts := hin.since.after (actsOn_after strerror sess.appLog fs (startActs strerror fs sess dontfork a))
  rcases sessionDaemonMain_acts strerror fs sess dontfork a with h | ⟨-, h⟩
  · rw [h]
    exact hacts
  · rw [h]
    exact hacts.listenAt _ _

theorem sparesLog_of_keepsLog {c : Command} (hin : (Owned.of fs (join p.dir b)).In fs)
    (hc : ∀ name, c.name = some name → '/' ∉ name) (h : c.KeepsLog strerror p fs b) : c.SparesLog p fs b := by
  cases c with
  | start name dontfork asks probe a notes =>
    have hsess := p.session_sockname (hc name rfl)
    rintro ⟨hasks, hown⟩
    rw [← hsess] at hasks hown
    simp only [KeepsLog, if_neg hasks] at h
    exact (startActs_logKept hin (p.session name) dontfork a).1 h.1 hown
  | clear name trouble a =>
    have hsess := p.session_sockname (hc name rfl)
    rintro hown
    rw [← hsess] at hown
    exact (clear_logKept hin (p.session name) trouble a).1 h hown
  | rm name a => trivial
  | rmAll named socks logs done => trivial

/-- **With an application log of its own** a session's log is cut only by way of the log of the session that is named. -/
theorem keepsLog_of_sparesLog {c : Command} (hin : (Owned.of fs (join p.dir b)).In fs)
    (hc : ∀ name, c.name = some name → '/' ∉ name) (happ : LogsApart p fs b) (h : c.SparesLog p fs b) :
    c.KeepsLog strerror p fs b := by
  have hreg := of_regular fs (join p.dir b)
  cases c with
  | start name dontfork asks probe a notes =>
    have hsess := p.session_sockname (hc name rfl)
    have hnotes : ∀ fs', (Owned.of fs (join p.dir b)).Since fs fs' → Owned.AlongActs strerror p.appLog
        ((Owned.of fs (join p.dir b)).LogKept strerror p.appLog) fs' (notes.map (fun n => .life (.note n))) := by
      intro fs' hsince
      refine Owned.along_of_apart hreg happ hsince (fun act hact => ?_)
      obtain ⟨n, -, rfl⟩ := List.mem_map.1 hact
      rfl
    simp only [KeepsLog]
    by_cases hasks : asks = true ∧ connectSocket fs probe (p.session name).sockname = .ok ()
    · rw [if_pos hasks]
      exact hnotes fs hin.since
    · rw [if_neg hasks]
      refine ⟨(startActs_logKept hin (p.session name) dontfork a).2 hreg happ (fun hown => h ?_),
        hnotes _ (start_since strerror hin _ _ _)⟩
      rw [← hsess]
      exact ⟨hasks, hown⟩
  | clear name trouble a =>
    have hsess := p.session_sockname (hc name rfl)
    refine (clear_logKept hin (p.session name) trouble a).2 hreg happ (fun hown => h ?_)
    rwa [← hsess]
  | rm name a => exact Owned.along_of_apart hreg happ hin.since (rmSingle_spares fs _ a)
  | rmAll named socks logs done =>
    obtain ⟨hwarned, hstale, horphans, hsince⟩ := rmAll_logKept hreg hin happ named socks logs
    refine ⟨hwarned, hstale, horphans, Owned.along_of_apart hreg happ hsince (fun act hact => ?_)⟩
    rw [List.mem_singleton.1 hact]
    rfl

def ztch : Program := ⟨⟨some "/h".toList, 1⟩, "ztch".toList, 1024⟩

def noRecord : RecordAns := ⟨0, false, 0, false, 0⟩

/-- A directory with a stale session `a` and a live session `b`, each with its log. -/
def twoSessions : Fs :=
  (((fileAt (join ztch.dir "a".toList) (.socket false)).make (logPath (join ztch.dir "a".toList)) (.regular [1])).make
    (join ztch.dir "b".toList) (.socket true)).make (logPath (join ztch.dir "b".toList)) (.regular [2])

end Command

end Zatch
