import Zatch.Chain
import Zatch.Life
import Zatch.Startup
/-!
# Afterwards — attaching to a session, whatever has become of it (`Session::try_connect`, `replay_log`)

The daemon's socket and its log are all that a later `attach` sees of it.  A daemon that ends removes the socket, one that is
killed leaves it behind with nobody at it: `attach` prints the log either way, and says that the session ended unexpectedly
exactly of the second, wherever in its life the daemon was (`attach_tells`).
-/
namespace Zatch

open Machine (run Along)
open FileCells (writeAt)

/-! ## `try_connect` -/

/-- What a command puts out. -/
inductive Told
  | recorded (level : LogLevel) (message : Str)
  | stdout (bs : List Byte)
  | stderr (bs : List Byte)

namespace Session

def say (sess : Session) (message : Str) : List Byte := utf8 (sess.progname ++ ": ".toList ++ message ++ "\n".toList)

def status (sess : Session) (level : LogLevel) (message : Str) : List Told :=
  [.recorded level message, .stdout (sess.say message)]

def warn (sess : Session) (quiet : Bool) (message : Str) : List Told :=
  .recorded .warn message :: if quiet then [] else [.stderr (sess.say message)]

/-- The line after the log of a session that nobody listens at. -/
def crashLine (sess : Session) : List Byte :=
  utf8 ("\r\n[".toList ++ sess.progname ++ ": session '".toList ++ sess.shortname ++ "' ended unexpectedly]\r\n\n".toList)

end Session

/-- What the system calls answer, besides what the file system says. -/
structure TryAns where
  trouble : Option Trouble
  /-- the log is not opened -/
  opens : Option Errno
  /-- a read at an offset: it fails, or gets as many bytes and one more, if there are -/
  reads : Nat → Except Errno Nat
  /-- what is in a file that is neither regular nor a directory -/
  device : List Byte

/-- `File::open`, and what is to be read there; a directory is opened, and its reads fail. -/
def openForRead (fs : Fs) (path : Str) (a : TryAns) : Except Errno (Except Errno (List Byte)) :=
  match a.opens with
  | some e => .error e
  | none =>
    match fs.stat path with
    | .error e => .error (.ofFile e)
    | .ok (.socket _) => .error .enxio
    | .ok .directory => .ok (.error .eisdir)
    | .ok (.regular content) => .ok (.ok content)
    | .ok _ => .ok (.ok a.device)

/-- The loop of `replay_log`, from an offset: what it has written, and the error that it breaks off at. -/
def replayLoop (content : List Byte) (reads : Nat → Except Errno Nat) : Nat → Nat → List Byte × Option Errno
  | 0, _ => ([], none)
  | fuel + 1, off =>
    match reads off with
    | .error e => ([], some e)
    | .ok n =>
      match (content.drop off).take (min (n + 1) bufsize) with
      | [] => ([], none)
      | b :: bs =>
        let o := replayLoop content reads fuel (off + (b :: bs).length)
        (b :: bs ++ o.1, o.2)

section
variable (strerror : Errno → Str)

/-- `replay_log`: whether there was a log; a `saved_errno` of 0 is `none`. -/
def replayLog (fs : Fs) (sess : Session) (quiet : Bool) (a : TryAns) (savedErrno : Option Errno) : Bool × List Told :=
  match openForRead fs (logPath sess.sockname) a with
  | .error _ => (false, [])
  | .ok content =>
    let o := match content with
      | .ok content => replayLoop content a.reads (content.length + 1) 0
      | .error e => ([], some e)
    let broken := match o.2 with
      | some e => sess.warn quiet ("error reading log for '".toList ++ sess.shortname ++ "': ".toList ++ strerror e)
      | none => []
    (true, .stdout o.1 :: broken ++ if savedErrno = some .econnrefused then [.stdout sess.crashLine] else [])

/-- What `try_connect` says when there is no session and no log. -/
def connectMessage (sess : Session) (err : Errno) : Str :=
  if err = .enoent then "session '".toList ++ sess.shortname ++ "' does not exist".toList
  else if err = .econnrefused then "session '".toList ++ sess.shortname ++ "' is not running".toList
  else if err = .enotsock then "'".toList ++ sess.shortname ++ "' is not a valid session".toList
  else sess.sockname ++ ": ".toList ++ strerror err

def withinItself (sess : Session) : Str := "cannot attach to session '".toList ++ sess.shortname ++ "' from within itself".toList

/-- `try_connect`: the error, or whether a log was replayed. -/
def tryConnect (noerror : Bool) (env : Option Str) (fs : Fs) (sess : Session) (quiet : Bool) (a : TryAns) :
    Except Errno Bool × List Told :=
  if refusesSelf env sess.sockname then
    (.error (.other 1), if noerror then [] else sess.status .error (withinItself sess))
  else
    match connectSocket fs a.trouble sess.sockname with
    | .error err =>
      let o := replayLog strerror fs sess quiet a (some err)
      (.error err, if noerror then [] else if o.1 then o.2 else o.2 ++ sess.status .error (connectMessage strerror sess err))
    | .ok _ =>
      let o := replayLog strerror fs sess quiet a none
      (.ok o.1, o.2)

end

/-- What has come to the standard output. -/
def stdoutOf (out : List Told) : List Byte :=
  out.flatMap (fun | .stdout bs => bs | _ => [])

/-- What has been said to be wrong: the records. -/
def recordsOf (out : List Told) : List (LogLevel × Str) :=
  out.filterMap (fun | .recorded level message => some (level, message) | _ => none)

/-! ## The files -/

/-- A session's files while its daemon is there: a socket with a listener, in a directory that its name can be removed from,
and a log. -/
structure HasFiles (fs : Fs) (sockname : Str) (sock log : Nat) (content : List Byte) : Prop where
  fits : Fits sockname
  nonempty : sockname ≠ []
  socket : fs.dir sockname = some sock
  listens : fs.node sock = .socket true
  removable : fs.frozen sockname = false
  opens : fs.inode (logPath sockname) = .ok log
  holds : fs.node log = .regular content

namespace HasFiles

variable {fs : Fs} {sockname : Str} {sock log : Nat} {content : List Byte}

theorem ne (h : HasFiles fs sockname sock log content) : sock ≠ log := by
  rintro rfl
  have := h.listens.symm.trans h.holds
  cases this

theorem look (h : HasFiles fs sockname sock log content) : ∀ r, fs.look sockname ≠ some (.link r) := by
  intro r hr
  rw [FileSystem.Fs.look, h.socket, Option.map_some, h.listens] at hr
  cases hr

theorem write (h : HasFiles fs sockname sock log content) (f : List Byte → List Byte) :
    HasFiles (fs.rewrite log f) sockname sock log (f content) := by
  rw [FileSystem.Fs.rewrite_eq h.holds]
  exact
    { fits := h.fits
      nonempty := h.nonempty
      socket := h.socket
      listens := (FileSystem.Fs.setNode_node_of_ne fs _ h.ne).trans h.listens
      removable := h.removable
      opens := (FileSystem.Fs.setNode_inode h.holds _ _).trans h.opens
      holds := FileSystem.Fs.setNode_node_self fs _ _ }

/-- **The daemon keeps its files** as long as it removes nothing. -/
theorem after : ∀ (fx : List Effect) {fs : Fs} {content : List Byte}, HasFiles fs sockname sock log content →
    (∀ e ∈ fx, SessionDaemon.removes e = false) → HasFiles (filesAfter log fs fx) sockname sock log (logHolds content fx)
  | [], _, _, h, _ => h
  | e :: fx, fs, content, h, hfx => by
    have htail := fun e' he' => hfx e' (List.mem_cons_of_mem _ he')
    cases e with
    | logWrote pos bs => exact after fx (h.write (writeAt 0 · pos bs)) htail
    | removeFile path => cases hfx _ List.mem_cons_self
    | _ => exact after fx h htail

/-- The log is there without the socket, too. -/
theorem drop_inode (h : HasFiles fs sockname sock log content) : (fs.drop sockname).inode (logPath sockname) = .ok log := by
  obtain ⟨q, hq, hdir⟩ := FileSystem.Fs.inode_eq_iff.1 h.opens
  have hne : q ≠ sockname := by
    rintro rfl
    rw [h.socket, Option.some_inj] at hdir
    exact h.ne hdir
  exact FileSystem.Fs.inode_eq_iff.2 ⟨q, FileSystem.Fs.drop_resolve h.look hne _ _ hq, (if_neg hne).trans hdir⟩

theorem unlink (h : HasFiles fs sockname sock log content) : (fs.unlink sockname).1 = fs.drop sockname := by
  have hdir : (fs.node sock).isDirectory = false := by rw [h.listens]; rfl
  rw [FileSystem.Fs.unlink_of_removable ⟨sock, h.socket, hdir, h.removable⟩]

theorem dead (h : HasFiles fs sockname sock log content) :
    listenAt fs sockname false = fs.setNode sock (.socket false) := by
  rw [listenAt, h.socket]

theorem dead_inode (h : HasFiles fs sockname sock log content) :
    (fs.setNode sock (.socket false)).inode (logPath sockname) = .ok log := by
  obtain ⟨q, hq, hdir⟩ := FileSystem.Fs.inode_eq_iff.1 h.opens
  have hlink : ∀ r, fs.node sock ≠ .link r := by
    intro r hr
    rw [h.listens] at hr
    cases hr
  refine FileSystem.Fs.inode_eq_iff.2 ⟨q, ?_, hdir⟩
  rw [FileSystem.Fs.setNode_resolve_of_not_link hlink (fun r hr => by cases hr)]
  exact hq

end HasFiles

/-! ## What has become of a daemon -/

inductive Fate
  | there
  /-- it was killed, or had no time to end -/
  | died
  | ended
deriving DecidableEq, Repr

/-- What has become of a daemon that has done this, and may have died then. -/
def fate (fx : List Effect) (died : Bool) : Fate :=
  if fx.any SessionDaemon.removes then .ended else if died then .died else .there

/-- The files then: a daemon that is gone listens no more. -/
def filesNow (log : Nat) (fs : Fs) (sockname : Str) (fx : List Effect) (died : Bool) : Fs :=
  match fate fx died with
  | .there => filesAfter log fs fx
  | _ => listenAt (filesAfter log fs fx) sockname false

/-- What it leaves of files that it had. -/
def Fate.leaves (fs : Fs) (sockname : Str) (sock : Nat) : Fate → Fs
  | .there => fs
  | .died => fs.setNode sock (.socket false)
  | .ended => fs.drop sockname

/-- What `try_connect` comes to. -/
def Fate.answer : Fate → Except Errno Bool
  | .there => .ok true
  | .died => .error .econnrefused
  | .ended => .error .enoent

/-- What is printed after the log. -/
def Fate.line (sess : Session) : Fate → List Byte
  | .died => sess.crashLine
  | _ => []

theorem fate_ne_ended {fx : List Effect} {died : Bool} (h : fate fx died ≠ .ended) :
    ∀ e ∈ fx, SessionDaemon.removes e = false := by
  intro e he
  cases hany : fx.any SessionDaemon.removes with
  | true => exact absurd (if_pos hany) h
  | false => exact Bool.eq_false_iff.2 (List.any_eq_false.1 hany e he)

/-- **The files now** are the daemon's own, as far as its fate leaves them. -/
theorem HasFiles.now {fs : Fs} {sockname : Str} {sock log : Nat} {content : List Byte} (h : HasFiles fs sockname sock log content)
    {path : String} (hpath : sockname = path.toList) {fx : List Effect}
    (hfx : fx.any SessionDaemon.removes = true →
      ∃ before, fx = before ++ [.removeFile path] ∧ ∀ e ∈ before, SessionDaemon.removes e = false) (died : Bool) :
    ∃ fs', HasFiles fs' sockname sock log (logHolds content fx) ∧
      filesNow log fs sockname fx died = (fate fx died).leaves fs' sockname sock := by
  unfold filesNow
  cases hf : fate fx died with
  | there => exact ⟨_, h.after fx (fate_ne_ended (by rw [hf]; decide)), rfl⟩
  | died =>
    have hthere := h.after fx (fate_ne_ended (by rw [hf]; decide))
    exact ⟨_, hthere, hthere.dead⟩
  | ended =>
    have hany : fx.any SessionDaemon.removes = true := by
      cases hany : fx.any SessionDaemon.removes with
      | true => rfl
      | false => cases died <;> simp [fate, hany] at hf
    obtain ⟨before, rfl, hbefore⟩ := hfx hany
    have hthere := h.after before hbefore
    have hholds : logHolds content (before ++ [.removeFile path]) = logHolds content before := by
      rw [logHolds_append]
      rfl
    have hfiles : filesAfter log fs (before ++ [.removeFile path]) = (filesAfter log fs before).drop sockname := by
      rw [← hthere.unlink, filesAfter, List.foldl_append, hpath]
      rfl
    refine ⟨_, hholds ▸ hthere, ?_⟩
    show listenAt (filesAfter log fs (before ++ [.removeFile path])) sockname false = _
    rw [hfiles, listenAt, FileSystem.Fs.drop_dir_self]
    rfl

/-- The system has nothing to say against the connection, and the log is read as it is. -/
structure TryAns.Plain (a : TryAns) : Prop where
  trouble : a.trouble = none
  opens : a.opens = none
  reads : ∀ off, ∃ n, a.reads off = .ok n

theorem replayLoop_eq {content : List Byte} {reads : Nat → Except Errno Nat} (h : ∀ off, ∃ n, reads off = .ok n) :
    ∀ (fuel off : Nat), content.length < off + fuel → replayLoop content reads fuel off = (content.drop off, none)
  | 0, off, hfuel => by
    rw [replayLoop, List.drop_eq_nil_of_le (by omega)]
  | fuel + 1, off, hfuel => by
    obtain ⟨n, hn⟩ := h off
    have hpos : 0 < min (n + 1) bufsize := Nat.lt_min.2 ⟨Nat.succ_pos n, by decide⟩
    simp only [replayLoop, hn]
    cases hgot : (content.drop off).take (min (n + 1) bufsize) with
    | nil =>
      rcases List.take_eq_nil_iff.1 hgot with h0 | hnil
      · omega
      · simp only [hnil]
    | cons b bs =>
      obtain ⟨rest, hrest⟩ : b :: bs <+: content.drop off := hgot ▸ List.take_prefix _ _
      have hdrop : content.drop (off + (b :: bs).length) = rest := by
        rw [← List.drop_drop, ← hrest, List.drop_left]
      have hlen : (b :: bs).length = bs.length + 1 := rfl
      have hmore : replayLoop content reads fuel (off + (b :: bs).length) = (rest, none) := by
        rw [replayLoop_eq h fuel _ (by omega), hdrop]
      simp only [hmore, hrest]

namespace HasFiles

variable {fs : Fs} {sess : Session} {sock log : Nat} {content : List Byte}

theorem connect (h : HasFiles fs sess.sockname sock log content) : connectSocket fs none sess.sockname = .ok () := by
  have hne : os sess.sockname ≠ [] := fun hnil => h.nonempty (os_eq_nil.1 hnil)
  simp only [connectSocket, connectUnix, streamConnect, h.fits, not_true_eq_false, if_false, hne,
    FileSystem.Fs.stat_of_socket h.socket h.listens]
  rfl

theorem connect_dead (h : HasFiles fs sess.sockname sock log content) :
    connectSocket (fs.setNode sock (.socket false)) none sess.sockname = .error .econnrefused := by
  have hne : os sess.sockname ≠ [] := fun hnil => h.nonempty (os_eq_nil.1 hnil)
  have hstat : (fs.setNode sock (.socket false)).stat sess.sockname = .ok (.socket false) :=
    FileSystem.Fs.stat_of_socket h.socket (FileSystem.Fs.setNode_node_self fs _ _)
  simp only [connectSocket, connectUnix, streamConnect, h.fits, not_true_eq_false, if_false, hne, hstat]
  rfl

end HasFiles

/-- A socket that is not there. -/
theorem connect_missing {fs : Fs} {sockname : Str} (hfits : Fits sockname) (hne : sockname ≠ []) (h : fs.look sockname = none) :
    connectSocket fs none sockname = .error .enoent := by
  have hne' : os sockname ≠ [] := fun hnil => hne (os_eq_nil.1 hnil)
  simp only [connectSocket, connectUnix, streamConnect, hfits, not_true_eq_false, if_false, hne',
    FileSystem.Fs.stat_of_look_none h]
  rfl

theorem HasFiles.connect_gone {fs : Fs} {sess : Session} {sock log : Nat} {content : List Byte}
    (h : HasFiles fs sess.sockname sock log content) :
    connectSocket (fs.drop sess.sockname) none sess.sockname = .error .enoent :=
  connect_missing h.fits h.nonempty (FileSystem.Fs.look_eq_none_iff.2 (FileSystem.Fs.drop_dir_self fs _))

/-- A log that is there is printed in full. -/
theorem replayLog_eq (strerror : Errno → Str) {fs : Fs} {sess : Session} {log : Nat} {content : List Byte}
    (hopens : fs.inode (logPath sess.sockname) = .ok log) (hholds : fs.node log = .regular content) (quiet : Bool)
    {a : TryAns} (ha : a.Plain) (savedErrno : Option Errno) :
    replayLog strerror fs sess quiet a savedErrno =
      (true, .stdout content :: if savedErrno = some .econnrefused then [.stdout sess.crashLine] else []) := by
  have hstat : fs.stat (logPath sess.sockname) = .ok (.regular content) := by
    rw [FileSystem.Fs.stat, hopens, ← hholds]
    rfl
  have hloop : replayLoop content a.reads (content.length + 1) 0 = (content, none) := by
    rw [replayLoop_eq ha.reads _ _ (by omega), List.drop_zero]
  simp only [replayLog, openForRead, ha.opens, hstat, hloop, List.nil_append, List.cons_append]

/-! ## Attaching -/

/-- **What `try_connect` finds** of a session is what has become of its daemon. -/
theorem tryConnect_leaves (strerror : Errno → Str) {fs : Fs} {sess : Session} {sock log : Nat} {content : List Byte}
    (h : HasFiles fs sess.sockname sock log content) {env : Option Str} (henv : refusesSelf env sess.sockname = false)
    (quiet : Bool) {a : TryAns} (ha : a.Plain) (f : Fate) :
    tryConnect strerror false env (f.leaves fs sess.sockname sock) sess quiet a =
      (f.answer, .stdout content :: if f = .died then [.stdout sess.crashLine] else []) := by
  cases f with
  | there =>
    have hreplay := replayLog_eq strerror h.opens h.holds quiet ha none
    simp only [Fate.leaves, tryConnect, henv, ha.trouble, h.connect, hreplay]
    rfl
  | died =>
    have hholds : (fs.setNode sock (.socket false)).node log = .regular content :=
      (FileSystem.Fs.setNode_node_of_ne fs _ (Ne.symm h.ne)).trans h.holds
    have hreplay := replayLog_eq strerror h.dead_inode hholds quiet ha (some .econnrefused)
    simp only [Fate.leaves, tryConnect, henv, ha.trouble, h.connect_dead, hreplay]
    rfl
  | ended =>
    have hreplay := replayLog_eq strerror h.drop_inode h.holds quiet ha (some .enoent)
    simp only [Fate.leaves, tryConnect, henv, ha.trouble, h.connect_gone, hreplay]
    rfl

/-- Where there is neither socket nor log, there is no session to attach to. -/
theorem tryConnect_nothing (strerror : Errno → Str) {fs : Fs} {sess : Session} (hfits : Fits sess.sockname)
    (hne : sess.sockname ≠ []) (hsock : fs.look sess.sockname = none) (hlog : fs.look (logPath sess.sockname) = none)
    {env : Option Str} (henv : refusesSelf env sess.sockname = false) (quiet : Bool) {a : TryAns} (ha : a.Plain) :
    tryConnect strerror false env fs sess quiet a =
      (.error .enoent, sess.status .error (connectMessage strerror sess .enoent)) := by
  have hreplay : replayLog strerror fs sess quiet a (some .enoent) = (false, []) := by
    rw [replayLog, openForRead, ha.opens]
    simp only [FileSystem.Fs.stat_of_look_none hlog]
  simp only [tryConnect, henv, ha.trouble, connect_missing hfits hne hsock, hreplay]
  rfl

/-- What the daemon has done has come to its end exactly when the socket's name is among it. -/
theorem Ends.removes_iff {sockname : String} {s : Living} {out fx : List Effect} (h : Ends sockname s out) (hfx : fx <+: out) :
    fx.any SessionDaemon.removes = true ↔ fx = out ∧ ∃ n, s.next = .exited n := by
  constructor
  · intro hany
    obtain ⟨e, he, hun⟩ := List.any_eq_true.1 hany
    have hno : ∀ {out : List Effect}, (∀ e ∈ out, SessionDaemon.removes e = false) → ¬ fx <+: out := fun hout hpre => by
      rw [hout e (hpre.subset he)] at hun
      cases hun
    by_cases hex : ∃ n, s.next = .exited n
    · obtain ⟨n, hn⟩ := hex
      obtain ⟨-, before, hout, hbefore⟩ := h.ended n hn
      rw [hout] at hfx
      rcases List.prefix_concat_iff.1 hfx with heq | hpre
      · exact ⟨heq.trans hout.symm, n, hn⟩
      · exact absurd hpre (hno hbefore)
    · exact absurd hfx (hno (h.alive (fun n hn => hex ⟨n, hn⟩)))
  · rintro ⟨rfl, n, hn⟩
    obtain ⟨-, before, hout, -⟩ := h.ended n hn
    rw [hout, List.any_append]
    exact Bool.or_true _

theorem Ends.removed_last {sockname : String} {s : Living} {out fx : List Effect} (h : Ends sockname s out) (hfx : fx <+: out)
    (hany : fx.any SessionDaemon.removes = true) :
    ∃ before, fx = before ++ [.removeFile sockname] ∧ ∀ e ∈ before, SessionDaemon.removes e = false := by
  obtain ⟨rfl, n, hn⟩ := (h.removes_iff hfx).1 hany
  exact (h.ended n hn).2

theorem Ends.fate_iff {sockname : String} {s : Living} {out fx : List Effect} (h : Ends sockname s out) (hfx : fx <+: out)
    (died : Bool) : fate fx died = .ended ↔ fx = out ∧ ∃ n, s.next = .exited n := by
  rw [← h.removes_iff hfx, fate]
  cases fx.any SessionDaemon.removes <;> cases died <;> simp

/-- **What attaching tells of a session**, in every life of its daemon, wherever between two of its effects the daemon may have
died: the whole log is printed, with the line that the session ended unexpectedly after it exactly when the daemon died before
its end, and nothing is recorded as wrong.  When the daemon has come to its end the log has the end marker. -/
theorem attach_tells (strerror : Errno → Str) (l : RawFd) (p : Pty) (log : SessionLog) (sockname progname : String)
    (old : List Byte) (hlog : log.pos = old.length) (ks : List SessionDaemon.TurnAns) {fx : List Effect} (died : Bool)
    (hfx : fx <+: (run Living.step ⟨SessionDaemon.new l p (some log) sockname progname, .again⟩ ks).2)
    {sess : Session} (hsess : sess.sockname = sockname.toList) {fs : Fs} {sock file : Nat}
    (hfs : HasFiles fs sess.sockname sock file old) (env : Option Str) (henv : refusesSelf env sess.sockname = false)
    (quiet : Bool) {a : TryAns} (ha : a.Plain) :
    let d := SessionDaemon.new l p (some log) sockname progname
    let r := run Living.step ⟨d, .again⟩ ks
    let t := tryConnect strerror false env (filesNow file fs sess.sockname fx died) sess quiet a
    (fate fx died = .ended ↔ fx = r.2 ∧ ∃ n, r.1.next = .exited n) ∧
      t.1 = (fate fx died).answer ∧ stdoutOf t.2 = logHolds old fx ++ (fate fx died).line sess ∧ recordsOf t.2 = [] ∧
      (∃ put rest, logHolds old fx = old ++ put ∧ logHolds old r.2 = old ++ put ++ rest) ∧
      (fate fx died = .ended → (∀ k ∈ ks, LogTakesAll d.endLine k) → d.endLine <:+ logHolds old fx) := by
  intro d r t
  have hends : Ends sockname r.1 r.2 := ends_run l p (some log) sockname progname ks
  have hended := hends.fate_iff hfx died
  have hlast := hends.removed_last hfx
  refine ⟨hended, ?_⟩
  -- the log, as far as the daemon has come
  obtain ⟨more, hmore⟩ := hfx
  have happends : Appends old (logWrites r.2) := (growsOn_run l p log sockname progname old hlog ks).appends
  have hfound : ∃ put rest, logHolds old fx = old ++ put ∧ logHolds old r.2 = old ++ put ++ rest := by
    have hsplit : logWrites r.2 = logWrites fx ++ logWrites more := by rw [← logWrites_append, hmore]
    refine ⟨(logWrites fx).flatMap Prod.snd, (logWrites more).flatMap Prod.snd, ?_, ?_⟩
    · rw [hsplit, appends_append] at happends
      exact Appends.holds _ happends.1
    · rw [List.append_assoc, ← List.flatMap_append, ← hsplit]
      exact Appends.holds _ happends
  have hmarker : fate fx died = .ended → (∀ k ∈ ks, LogTakesAll d.endLine k) → d.endLine <:+ logHolds old fx := by
    intro hf htakes
    obtain ⟨hall, n, hn⟩ := hended.1 hf
    obtain ⟨-, bytes, hbytes, -, -, -, hend⟩ := logsOn_run l p log sockname progname old hlog ks htakes
    obtain ⟨before, hbefore, -⟩ := hend n hn
    refine ⟨old ++ before.map LogByte.val, ?_⟩
    rw [hall, hbytes, hbefore, List.map_append, map_val_map (fun _ => rfl), List.append_assoc]
  -- what is printed, by what has become of the daemon
  obtain ⟨fs', hhas, hfiles⟩ := hfs.now hsess hlast died
  have ht : t = _ := (congrArg (fun files => tryConnect strerror false env files sess quiet a) hfiles).trans
    (tryConnect_leaves strerror hhas henv quiet ha (fate fx died))
  refine ⟨congrArg Prod.fst ht, ?_, ?_, hfound, hmarker⟩
  · rw [ht]
    cases fate fx died with
    | died => exact congrArg _ (List.append_nil _)
    | _ => rfl
  · rw [ht]
    cases fate fx died <;> rfl

theorem logPath_ne (sockname : Str) : os (logPath sockname) ≠ os sockname := by
  intro heq
  have hlen := congrArg List.length (os_injective heq)
  rw [logPath, List.length_append] at hlen
  exact absurd hlen (by simp)

/-- A session's socket and its log. -/
def shortFiles (sockname : Str) : Fs where
  dir p := if p = os sockname then some 0 else if p = os (logPath sockname) then some 1 else none
  node i := if i = 0 then .socket true else .regular [8, 9]
  next := 2
  frozen _ := false
  cuts _ := 0
  dir_lt p i h := by
    split at h
    · cases h
      decide
    · split at h <;> cases h
      decide

theorem shortFiles_has {sockname : Str} (hfits : Fits sockname) (hne : sockname ≠ []) :
    HasFiles (shortFiles sockname) sockname 0 1 [8, 9] where
  fits := hfits
  nonempty := hne
  socket := if_pos rfl
  listens := rfl
  removable := rfl
  opens := by
    have hdir : (shortFiles sockname).dir (logPath sockname) = some 1 := (if_neg (logPath_ne sockname)).trans (if_pos rfl)
    refine FileSystem.Fs.inode_eq_iff.2 ⟨logPath sockname, ?_, hdir⟩
    rw [FileSystem.Fs.resolve, hdir]
    rfl
  holds := rfl

def shortSession (sockname : Str) (h : sockname ≠ []) : Session := ⟨"z".toList, "z.app".toList, sockname, 64, h⟩

/-- Attaching to it when it has ended. -/
theorem attach_tells_short :
    let r := run Living.step ⟨shortDaemon, .again⟩ threeAndEnd
    let t := tryConnect (fun _ => []) false none (filesNow 1 (shortFiles "s".toList) "s".toList r.2 false)
      (shortSession "s".toList (by decide)) false ⟨none, none, fun off => .ok off, []⟩
    t.1 = .error .enoent ∧ stdoutOf t.2 = logHolds [8, 9] r.2 ++ [] ∧ shortDaemon.endLine <:+ logHolds [8, 9] r.2 := by
  intro r t
  have hplain : TryAns.Plain ⟨none, none, fun off => .ok off, []⟩ := ⟨rfl, rfl, fun off => ⟨off, rfl⟩⟩
  have h := attach_tells (fun _ => []) 3 ⟨4, 9⟩ ⟨2, 64⟩ "s" "z" [8, 9] rfl threeAndEnd false (List.prefix_refl r.2)
    (rfl : (shortSession "s".toList (by decide)).sockname = "s".toList) (shortFiles_has (by decide) (by decide)) none rfl false
    hplain
  obtain ⟨hended, hres, hout, -, -, hmarker⟩ := h
  have hf : fate r.2 false = .ended := hended.2 ⟨rfl, 7, by decide +kernel⟩
  refine ⟨hres.trans (congrArg Fate.answer hf), hout.trans ?_, hmarker hf threeAndEnd_takes⟩
  rw [hf]
  rfl

end Zatch
