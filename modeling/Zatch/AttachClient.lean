import Zatch.Lib.Machine
import Zatch.Stdin
/-!
# AttachClient — an attached client and its signals (`attach`, `event_loop`)

The client is run one operation at a time, and between any two of them a signal handler may run: what it does to the
terminal and to the flags is what the operations after it find.  `todo` is what the client has still to do before it next
looks at anything; `Proc.step_cases` says what one event can do.
-/
namespace Zatch

open Machine

/-- The attributes of a terminal (`libc::termios`). -/
structure TermAttrs where
  iflag : BitVec 32
  oflag : BitVec 32
  cflag : BitVec 32
  lflag : BitVec 32
  cc : List Byte
deriving DecidableEq

namespace TermAttrs

def ignbrk : BitVec 32 := 0x1
def brkint : BitVec 32 := 0x2
def parmrk : BitVec 32 := 0x8
def istrip : BitVec 32 := 0x20
def inlcr : BitVec 32 := 0x40
def igncr : BitVec 32 := 0x80
def icrnl : BitVec 32 := 0x100
def ixon : BitVec 32 := 0x400
def ixoff : BitVec 32 := 0x1000
def opost : BitVec 32 := 0x1
def isig : BitVec 32 := 0x1
def icanon : BitVec 32 := 0x2
def echo : BitVec 32 := 0x8
def echonl : BitVec 32 := 0x40
def iexten : BitVec 32 := 0x8000
def csize : BitVec 32 := 0x30
def cs8 : BitVec 32 := 0x30
def parenb : BitVec 32 := 0x100
def vtime : Nat := 5
def vmin : Nat := 6
def vsusp : Nat := 10

/-- The attributes `raw_terminal` makes of the ones it is given. -/
def raw (orig : TermAttrs) : TermAttrs where
  iflag := orig.iflag &&& ~~~(ignbrk ||| brkint ||| parmrk ||| istrip ||| inlcr ||| igncr ||| icrnl) &&& ~~~(ixon ||| ixoff)
  oflag := orig.oflag ||| opost
  cflag := (orig.cflag &&& ~~~(csize ||| parenb)) ||| cs8
  lflag := orig.lflag &&& ~~~(echo ||| echonl ||| icanon ||| isig ||| iexten)
  cc := (orig.cc.set vmin 1).set vtime 0

end TermAttrs

/-- What `attach` reads of the session's settings, and whether it has replayed the log (`skip_ring`). -/
structure Attaching where
  /-- `session_shortname` of the socket -/
  name : String
  progname : String
  noSuspend : Bool
  detachChar : Int
  redrawMethod : RedrawMethod
  clearMove : Bool
  noAnsiterm : Bool
  quiet : Bool
  skipRing : Bool
  /-- `orig_term` -/
  orig : TermAttrs

namespace Attaching

variable (c : Attaching)

/-- `cur_term` -/
def cur : TermAttrs := c.orig.raw

def keys : ClientKeys := ⟨c.name, c.progname, c.noSuspend, c.detachChar, c.cur.cc.getD TermAttrs.vsusp 0, c.redrawMethod⟩

end Attaching

/-- The operations of an attached client. -/
inductive Op
  /-- `TERM_BACKUP.set` -/
  | backup (t : TermAttrs)
  /-- `TERM_BACKED_UP.store` -/
  | backedUp (b : Bool)
  /-- `tcsetattr` -/
  | setTerm (t : TermAttrs)
  /-- `atexit` and the panic hook, both of them `restore_term` -/
  | hooks
  /-- `write_buf` to the standard output, of a text of the client's own -/
  | write (bs : List Byte)
  /-- `write_buf` to the standard output, of what the session has sent -/
  | display (bs : List Byte)
  /-- `write_to` the session, its result dropped -/
  | send (pkt : Packet)
  /-- `write_to` the session, and `attach` returns when it fails -/
  | request (pkt : Packet) (what : String)
  | record (level : LogLevel) (message : String)
  /-- `println!` or `eprintln!`, which panics when the text cannot be written -/
  | print (text : String)
  /-- `WIN_CHANGED.store(true)` -/
  | setWinch
  /-- `SIGTSTP` to itself -/
  | stop
  /-- the top of `event_loop` -/
  | check
  | select
  /-- `handle_server_data` -/
  | server
  /-- `handle_stdin_data` -/
  | stdin
  /-- the end of a turn of `event_loop`, which takes `WIN_CHANGED` -/
  | winch
  /-- `get_winsize_raw`, for the Winch packet -/
  | getWinsize
  /-- `process::exit`, which `main` calls too when `attach` returns -/
  | exit (status : Nat)
deriving DecidableEq

/-- What the system answers one operation: each reads what it asks for. -/
structure OpAns where
  /-- `tcsetattr` takes effect -/
  termTook : Bool
  writes : List WriteRet
  /-- `select`: whether the socket and the standard input are ready -/
  ready : Except Errno (Bool × Bool)
  sock : ReadRet
  stdin : Except Errno (List Byte)
  winsize : List Byte
  age : String
  printed : Bool
  /-- the signal `SIGTSTP` stops the client -/
  stops : Bool

inductive Ending
  | exited (status : Nat)
  | panicked
deriving DecidableEq, Repr

/-- A client, its terminal and its end of the socket. -/
structure Proc where
  term : TermAttrs
  /-- `TERM_BACKUP` -/
  backup : Option TermAttrs
  /-- `TERM_BACKED_UP` -/
  backedUp : Bool
  /-- `SHOULD_DIE` -/
  shouldDie : Bool
  /-- `WIN_CHANGED` -/
  winChanged : Bool
  hooked : Bool
  todo : List Op
  stopped : Bool
  ending : Option Ending
  /-- what the session has sent and the client has not read -/
  unread : List Byte
  /-- the session has closed the connection -/
  closed : Bool

/-- What is seen of a client from outside. -/
inductive Seen
  | arrived (bs : List Byte)
  /-- what a read of the standard input has got -/
  | keyed (bs : List Byte)
  | displayed (bs : List Byte)
  | wrote (bs : List Byte)
  | printed (text : String)
  /-- `get_winsize_raw` has read the size of the window -/
  | measured (winsize : List Byte)
  /-- a call of `write_to`, and what the socket took of it -/
  | sent (pkt : Packet) (took : List Byte)
  /-- a call of `select`, and whether `SHOULD_DIE` is set at it -/
  | selected (shouldDie : Bool)
  /-- `read` of the socket has returned 0 -/
  | eof
  /-- `handle_winch` has run -/
  | resized
  | ended (e : Ending)
deriving DecidableEq

/-- What happens to a client: a handler runs, it is continued, the session sends or closes, or it does its next operation. -/
inductive ProcEv
  /-- `handle_die` -/
  | die (took : Bool)
  /-- `handle_winch` -/
  | winch
  | cont
  | arrive (bs : List Byte)
  | close
  | go (a : OpAns)

namespace Proc

/-- The operations of `attach` from where it takes the terminal. -/
def prologue (c : Attaching) : List Op :=
  [.backup c.orig, .backedUp true, .setTerm c.cur, .hooks] ++
  (if c.clearMove && !c.noAnsiterm then [.write [0x1b, 0x63]]
    else if !c.quiet && !c.skipRing then [.write [0x0d, 0x0a]] else []) ++
  [.request (Packet.encode .attach (if c.skipRing then 1 else 0)) "attach",
    .request (Packet.withData .redraw c.redrawMethod.toU8 []) "redraw", .check]

def begin (c : Attaching) : Proc where
  term := c.orig
  backup := none
  backedUp := false
  shouldDie := false
  winChanged := false
  hooked := false
  todo := prologue c
  stopped := false
  ending := none
  unread := []
  closed := false

def setTerm (p : Proc) (t : TermAttrs) (took : Bool) : Proc := if took then { p with term := t } else p

/-- `restore_term` -/
def restoreTerm (p : Proc) (took : Bool) : Proc :=
  if p.backedUp then
    match p.backup with
    | some t => p.setTerm t took
    | none => p
  else p

/-- `restore_term` where it is run as an exit handler or by the panic hook. -/
def runHooks (p : Proc) (took : Bool) : Proc := if p.hooked then p.restoreTerm took else p

def first (p : Proc) (ops : List Op) : Proc := { p with todo := ops ++ p.todo }

def finish (p : Proc) (e : Ending) : Proc := { p with ending := some e, todo := [] }

end Proc

/-- `restore_and_exit` -/
def restoreAndExit (c : Attaching) (status : Nat) : List Op := [.setTerm c.orig, .backedUp false, .exit status]

/-- The message in brackets that `event_loop` prints. -/
def bracketed (c : Attaching) (what : String) : String := "\r\n[" ++ c.progname ++ ": session '" ++ c.name ++ "' " ++ what ++ "]\r\n"

/-- A message that is recorded and printed. -/
def announced (c : Attaching) (level : LogLevel) (what : String) : List Op :=
  [.record level ("session '" ++ c.name ++ "' " ++ what), .print (bracketed c what)]

def dieOps (c : Attaching) (age : String) : List Op := announced c .info ("detached after " ++ age) ++ restoreAndExit c 0

def selectOps (c : Attaching) : Except Errno (Bool × Bool) → List Op
  | .error .eintr => [.check]
  | .error _ => announced c .error "select failed" ++ restoreAndExit c 1
  | .ok (sock, stdin) => (if sock then [.server] else []) ++ (if stdin then [.stdin] else []) ++ [.winch, .check]

def handleServerData (c : Attaching) (age : String) : Except Errno (List Byte) → List Op
  | .ok [] => (if c.quiet then [] else announced c .info ("exited after " ++ age)) ++ restoreAndExit c 0
  | .ok (b :: bs) => [.display (b :: bs)]
  | .error (.other _) => announced c .error ("read error after " ++ age) ++ restoreAndExit c 1
  | .error _ => []

/-- What `handle_stdin_data` does, in operations. -/
def StdinAct.ops (c : Attaching) : StdinAct → List Op
  | .recorded level message => [.record level message]
  | .printed text => [.print text]
  | .send pkt => [.send pkt]
  | .suspended => [.setTerm c.orig, .write [0x0d, 0x0a], .stop, .setTerm c.cur]
  | .winChanged => [.setWinch]
  | .exited status => restoreAndExit c status

def failedRequest (c : Attaching) (what : String) : List Op :=
  let message := "failed to send " ++ what ++ " request to '" ++ c.name ++ "'"
  .record .warn message :: (if c.quiet then [] else [.print (c.progname ++ ": " ++ message)]) ++ [.exit 1]

/-- A Redraw carries the size the window has when it is sent. -/
def Packet.sized (pkt : Packet) (winsize : List Byte) : Packet :=
  if pkt.msgType = MsgType.redraw.toU8 then Packet.withData .redraw pkt.len winsize else pkt

/-- What a read has got. -/
def gotten : Except Errno (List Byte) → List Byte
  | .ok bs => bs
  | .error _ => []

/-- One operation of the client, taken off `todo`. -/
def Proc.perform (c : Attaching) (p : Proc) (a : OpAns) : Op → Proc × List Seen
  | .backup t => ({ p with backup := some (p.backup.getD t) }, [])
  | .backedUp b => ({ p with backedUp := b }, [])
  | .setTerm t => (p.setTerm t a.termTook, [])
  | .hooks => ({ p with hooked := true }, [])
  | .write bs => (p, [.wrote (writeBuf bs a.writes).1])
  | .display bs => (p, [.displayed (writeBuf bs a.writes).1])
  | .send pkt => (p, [.sent (pkt.sized a.winsize) ((pkt.sized a.winsize).writeTo a.writes).sent])
  | .request pkt what =>
    let o := (pkt.sized a.winsize).writeTo a.writes
    (match o.res with
      | .ok () => p
      | .error _ => p.first (failedRequest c what), [.sent (pkt.sized a.winsize) o.sent])
  | .record _ _ => (p, [])
  | .print text =>
    if a.printed then (p, [.printed text]) else ((p.runHooks a.termTook).finish .panicked, [.ended .panicked])
  | .setWinch => ({ p with winChanged := true }, [])
  | .stop => ({ p with stopped := a.stops }, [])
  | .check => (p.first (if p.shouldDie then dieOps c a.age else [.select]), [])
  | .select => (p.first (selectOps c a.ready), [.selected p.shouldDie])
  | .server =>
    let r := a.sock.ret p.unread bufsize
    ({ p with unread := p.unread.drop (gotten r).length }.first (handleServerData c a.age r),
      if r = .ok [] then [.eof] else [])
  | .stdin =>
    (p.first ((handleStdinData c.keys ⟨a.stdin, a.winsize, a.age⟩).flatMap (StdinAct.ops c)), [.keyed (gotten a.stdin)])
  | .winch => if p.winChanged then ({ p with winChanged := false }.first [.getWinsize], []) else (p, [])
  | .getWinsize => (p.first [.send (Packet.withData .winch 0 a.winsize)], [.measured a.winsize])
  | .exit status => ((p.runHooks a.termTook).finish (.exited status), [.ended (.exited status)])

def Proc.step (c : Attaching) (p : Proc) : ProcEv → Proc × List Seen
  | .die took =>
    if p.stopped ∨ p.ending.isSome then (p, []) else ({ p.restoreTerm took with shouldDie := true }, [])
  | .winch => if p.stopped ∨ p.ending.isSome then (p, []) else ({ p with winChanged := true }, [.resized])
  | .cont => ({ p with stopped := false }, [])
  | .arrive bs => if p.closed then (p, []) else ({ p with unread := p.unread ++ bs }, [.arrived bs])
  | .close => ({ p with closed := true }, [])
  | .go a =>
    if p.stopped ∨ p.ending.isSome then (p, [])
    else
      match p.todo with
      | [] => (p, [])
      | op :: ops => { p with todo := ops }.perform c a op

/-! ## What an operation leads to -/

namespace Proc

/-- The operations that an operation puts before those still to do. -/
def opens (c : Attaching) (p : Proc) (a : OpAns) : Op → List Op
  | .request pkt what =>
    match ((pkt.sized a.winsize).writeTo a.writes).res with
    | .ok () => []
    | .error _ => failedRequest c what
  | .check => if p.shouldDie then dieOps c a.age else [.select]
  | .select => selectOps c a.ready
  | .server => handleServerData c a.age (a.sock.ret p.unread bufsize)
  | .stdin => (handleStdinData c.keys ⟨a.stdin, a.winsize, a.age⟩).flatMap (StdinAct.ops c)
  | .winch => if p.winChanged then [.getWinsize] else []
  | .getWinsize => [.send (Packet.withData .winch 0 a.winsize)]
  | _ => []

@[simp] theorem todo_setTerm (p : Proc) (t : TermAttrs) (took : Bool) : (p.setTerm t took).todo = p.todo := by
  unfold setTerm; split <;> rfl

/-- **An operation** ends the client, or leaves what was to do, with something put before it. -/
theorem perform_todo (c : Attaching) (p : Proc) (a : OpAns) (op : Op) :
    (p.perform c a op).1.ending.isSome ∧ (p.perform c a op).1.todo = [] ∨
      (p.perform c a op).1.ending = p.ending ∧ (p.perform c a op).1.todo = p.opens c a op ++ p.todo := by
  cases op with
  | setTerm t => exact .inr ⟨by simp only [perform, setTerm]; split <;> rfl, by simp [perform, opens]⟩
  | request pkt what =>
    refine .inr ?_
    simp only [perform, opens]
    split <;> exact ⟨rfl, rfl⟩
  | print text =>
    simp only [perform]
    split
    · exact .inr ⟨rfl, rfl⟩
    · exact .inl ⟨rfl, rfl⟩
  | winch =>
    refine .inr ?_
    simp only [perform, opens]
    split <;> exact ⟨rfl, rfl⟩
  | exit status => exact .inl ⟨rfl, rfl⟩
  | _ => exact .inr ⟨rfl, rfl⟩

/-- `handle_die` changes nothing but the terminal. -/
theorem restoreTerm_eq (p : Proc) (took : Bool) : p.restoreTerm took = { p with term := (p.restoreTerm took).term } := by
  unfold restoreTerm setTerm
  split
  · split
    · split <;> rfl
    · rfl
  · rfl

/-- **What an event does**: an operation, something arrives, or nothing that the client has still to do is touched. -/
theorem step_cases (c : Attaching) (p : Proc) (ev : ProcEv) :
    (∃ a op ops, ev = .go a ∧ p.stopped = false ∧ p.ending = none ∧ p.todo = op :: ops ∧
      p.step c ev = { p with todo := ops }.perform c a op) ∨
    (∃ bs, p.closed = false ∧ p.step c ev = ({ p with unread := p.unread ++ bs }, [.arrived bs])) ∨
    (∃ p' quiet, p.step c ev = (p', quiet) ∧
      (quiet = [] ∧ p'.winChanged = p.winChanged ∨ quiet = [.resized] ∧ p'.winChanged = true) ∧
      p'.todo = p.todo ∧ p'.unread = p.unread ∧ (p.closed = true → p'.closed = true) ∧
      (p.shouldDie = true → p'.shouldDie = true) ∧ p'.ending = p.ending) := by
  have hstill : ∀ (stopped closed : Bool), (p.closed = true → closed = true) →
      ∃ p' quiet, ({ p with stopped := stopped, closed := closed }, ([] : List Seen)) = (p', quiet) ∧
        (quiet = [] ∧ p'.winChanged = p.winChanged ∨ quiet = [.resized] ∧ p'.winChanged = true) ∧
        p'.todo = p.todo ∧ p'.unread = p.unread ∧ (p.closed = true → p'.closed = true) ∧
        (p.shouldDie = true → p'.shouldDie = true) ∧ p'.ending = p.ending := fun stopped closed hc =>
    ⟨_, [], rfl, .inl ⟨rfl, rfl⟩, rfl, rfl, hc, id, rfl⟩
  cases ev with
  | die took =>
    refine .inr (.inr ?_)
    simp only [step]
    split
    · exact hstill p.stopped p.closed id
    · rw [restoreTerm_eq]
      exact ⟨_, [], rfl, .inl ⟨rfl, rfl⟩, rfl, rfl, id, fun _ => rfl, rfl⟩
  | winch =>
    refine .inr (.inr ?_)
    simp only [step]
    split
    · exact hstill p.stopped p.closed id
    · exact ⟨_, _, rfl, .inr ⟨rfl, rfl⟩, rfl, rfl, id, id, rfl⟩
  | cont => exact .inr (.inr (hstill false p.closed id))
  | arrive bs =>
    simp only [step]
    split
    · exact .inr (.inr (hstill p.stopped p.closed id))
    · rename_i hc
      exact .inr (.inl ⟨bs, by simpa using hc, rfl⟩)
  | close => exact .inr (.inr (hstill p.stopped true (fun _ => rfl)))
  | go a =>
    simp only [step]
    split
    · exact .inr (.inr (hstill p.stopped p.closed id))
    · rename_i hlive
      simp only [not_or, Bool.not_eq_true, Option.isSome_eq_false_iff, Option.isNone_iff_eq_none] at hlive
      split
      · exact .inr (.inr (hstill p.stopped p.closed id))
      · rename_i op ops htodo
        exact .inl ⟨a, op, ops, rfl, hlive.1, hlive.2, htodo, rfl⟩

end Proc

/-! ## A client that can be run -/

def plainTerm : TermAttrs := ⟨0x500, 0x5, 0xbf, 0x8a3b, (List.replicate 32 0).set TermAttrs.vsusp 26⟩

def plainClient : Attaching := ⟨"s", "ztch", false, 28, .unspec, false, false, false, false, plainTerm⟩

/-- The system grants whatever is asked, and there is nothing to read. -/
def plainAns : OpAns := ⟨true, [.room 4096], .error .eintr, .fail .eagain, .error .eagain, [24, 0, 80, 0, 0, 0, 0, 0], "3s", true, true⟩

end Zatch
