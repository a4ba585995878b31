import Zatch.Scrollback
/-!
# Daemon — the session daemon's state and its handlers (`client.rs`, `session_daemon.rs`)

Each function takes the kernel's answers to its calls and returns the daemon after it and what it did, oldest first
(`Effect`).  `SessionDaemon.turn` is one turn of the event loop of `SessionDaemon::run`.
-/
namespace Zatch

structure Client where
  fd : RawFd
  attached : Bool
  replayHead : Nat
  replayRemaining : Nat
  peerPid : Nat
deriving DecidableEq, Repr

structure Pty where
  fd : RawFd
  pid : Nat
deriving DecidableEq, Repr

structure Winsize where
  row : Nat
  col : Nat
  xpixel : Nat
  ypixel : Nat
deriving DecidableEq, Repr

/-- The open session log: where its next byte goes, and its cap. -/
structure SessionLog where
  pos : Nat
  maxSize : Nat
deriving DecidableEq, Repr

inductive Effect
  | chmod (exec : Bool)
  | accepted (fd : RawFd)
  | closed (fd : RawFd)
  /-- a call of `Packet::read_from` and its result -/
  | read (fd : RawFd) (res : Except ProtocolError Packet)
  /-- scrollback sent to a client -/
  | replayed (fd : RawFd) (bs : List Byte)
  /-- live output sent to a client -/
  | live (fd : RawFd) (bs : List Byte)
  /-- the answer to an `Info` packet -/
  | told (fd : RawFd) (bs : List Byte)
  | ptyWrote (bs : List Byte)
  | ptyWinsize (ws : Winsize)
  | ptyKill (sig : Nat)
  | logWrote (pos : Nat) (bs : List Byte)
  | appLog (msg : String)
  /-- a call of `remove_file`, its result dropped; what becomes of the name is the directory's -/
  | removeFile (path : String)
deriving DecidableEq

structure SessionDaemon where
  listenerFd : RawFd
  pty : Pty
  clients : List Client
  scrollback : Ring
  log : Option SessionLog
  sockname : String
  progname : String
  hasAttached : Bool
  evictAttached : Bool

def bytesOf (s : String) : List Byte := s.toUTF8.toList

def sessionShortname (sockname : String) : String := (sockname.splitOn "/").getLastD sockname

/-- `winsize_from_bytes`: four native-endian `u16`s, little-endian on every supported target. -/
def winsizeFromBytes (data : List Byte) : Winsize :=
  let u16 := fun i => (data.getD i 0).toNat + 256 * (data.getD (i + 1) 0).toNat
  ⟨u16 0, u16 2, u16 4, u16 6⟩

/-- `Vec::swap_remove`: the last element takes the place of the removed one. -/
def swapRemove {α : Type} (l : List α) (i : Nat) : List α :=
  match l.getLast? with
  | none => l
  | some x => (l.set i x).dropLast

/-- `SessionLog::write`, of which the file took the first `took` bytes, and what it did. -/
def SessionLog.write (l : SessionLog) (data : List Byte) (took : Nat) : SessionLog × Effect :=
  ({ l with pos := l.pos + (data.take took).length }, .logWrote l.pos (data.take took))

namespace SessionDaemon

def new (listenerFd : RawFd) (pty : Pty) (log : Option SessionLog) (sockname progname : String) : SessionDaemon where
  listenerFd := listenerFd
  pty := pty
  clients := []
  scrollback := Ring.new
  log := log
  sockname := sockname
  progname := progname
  hasAttached := false
  evictAttached := false

def logData (d : SessionDaemon) (data : List Byte) (took : Nat) : SessionDaemon × List Effect :=
  match d.log with
  | none => (d, [])
  | some l => ({ d with log := some (l.write data took).1 }, [(l.write data took).2])

def logWarn (d : SessionDaemon) (msg : String) (took : Nat) : SessionDaemon × List Effect :=
  let o := d.logData (bytesOf ("[" ++ d.progname ++ ": warn: " ++ msg ++ "]\r\n")) took
  (o.1, .appLog msg :: o.2)

def readSet (d : SessionDaemon) : FdSet := d.listenerFd :: d.pty.fd :: d.clients.map (·.fd)

def writeSet (d : SessionDaemon) : FdSet := (d.clients.filter (fun c => decide (c.replayRemaining > 0))).map (·.fd)

/-- `build_fd_sets`, its sets apart: the socket's mode and `has_attached`. -/
def buildFdSets (d : SessionDaemon) : SessionDaemon × List Effect :=
  ({ d with hasAttached := d.clients.any (·.attached) }, [.chmod (d.clients.any (·.attached))])

def acceptClient (d : SessionDaemon) (r : AcceptRet) (took : Nat) : SessionDaemon × List Effect :=
  match r with
  | .fail _ => (d, [])
  | .conn fd false _ =>
    let o := d.logWarn "could not set client socket non-blocking; connection rejected" took
    (o.1, .accepted fd :: o.2 ++ [.closed fd])
  | .conn fd true cred =>
    ({ d with clients := d.clients ++ [⟨fd, false, 0, 0, cred.getD 0⟩] }, [.accepted fd])

/-! ## Packets -/

/-- `tcgetattr` on the PTY master: `c_lflag` and `c_cc[VMIN]`. -/
structure Termios where
  lflag : Nat
  vmin : Nat
deriving DecidableEq, Repr

/-- What the kernel answers while one packet of a client is read and handled: the bytes the client has sent, the
answers to `read_from`, to the writes to the client and to the one write to the PTY, and `tcgetattr`. -/
structure PacketAns where
  inp : List Byte
  reads : List ReadRet
  writes : List WriteRet
  pty : WriteRet
  term : Option Termios

structure Handled where
  d : SessionDaemon
  fx : List Effect
  keep : Bool

/-- `write(2)` to the PTY master, its result dropped. -/
def ptyWrite (bs : List Byte) (w : WriteRet) : List Effect :=
  match w.ret bs.length with
  | .ok n => [.ptyWrote (bs.take n)]
  | .error _ => []

def handlePush (d : SessionDaemon) (pkt : Packet) (w : WriteRet) : Handled :=
  let dlen := min pkt.len.toNat pkt.data.length
  if dlen > 0 then ⟨d, ptyWrite (pkt.data.take dlen) w, true⟩ else ⟨d, [], true⟩

def handleAttach (d : SessionDaemon) (i : Nat) (cfd : RawFd) (pkt : Packet) (ws : List WriteRet) : Handled :=
  if pkt.len ≠ 0 ∨ d.scrollback.len = 0 then
    ⟨{ d with clients := d.clients.modify i (fun c => { c with attached := true }) }, [], true⟩
  else
    let o := ReplayState.drain d.scrollback.toScrollback ⟨d.scrollback.head, d.scrollback.len⟩ ws
    ⟨{ d with clients := d.clients.modify i (fun c =>
        { c with
          replayHead := o.rs.head
          replayRemaining := o.rs.remaining
          attached := if o.ok = true ∧ o.rs.remaining = 0 then true else c.attached }) },
      [.replayed cfd o.sent], true⟩

def handleDetach (d : SessionDaemon) (i : Nat) : Handled :=
  ⟨{ d with clients := d.clients.modify i (fun c => { c with attached := false }) }, [], true⟩

def handleForceDetach (d : SessionDaemon) : Handled := ⟨{ d with evictAttached := true }, [], false⟩

def tell (fd : RawFd) : List (List Byte) → List WriteRet → List Effect
  | [], _ => []
  | t :: ts, ws => .told fd (writeBuf t ws).1 :: tell fd ts (writeBuf t ws).2

def handleInfo (d : SessionDaemon) (fd : RawFd) (ws : List WriteRet) : Handled :=
  let attached := d.clients.filter (·.attached)
  let header := bytesOf ("attached: " ++ toString attached.length ++ "\n")
  let lines := attached.map (fun c => bytesOf ("pid: " ++ toString c.peerPid ++ "\n"))
  ⟨d, tell fd (header :: lines) ws, false⟩

def handleWinch (d : SessionDaemon) (pkt : Packet) : Handled := ⟨d, [.ptyWinsize (winsizeFromBytes pkt.data)], true⟩

/-- Raw mode, as `handle_redraw` tests it: neither `ECHO` nor `ICANON`, and `VMIN` is 1. -/
def isRaw : Option Termios → Bool
  | some t => t.lflag &&& (8 ||| 2) = 0 ∧ t.vmin = 1
  | none => false

/-- `handle_redraw`: the size, and then `^L` through the PTY, `SIGWINCH` to the child, or nothing. -/
def handleRedraw (d : SessionDaemon) (pkt : Packet) (term : Option Termios) (w : WriteRet) : Handled :=
  let size := Effect.ptyWinsize (winsizeFromBytes pkt.data)
  if pkt.len = RedrawMethod.ctrlL.toU8 then
    if isRaw term then ⟨d, size :: ptyWrite [0x0c] w, true⟩ else ⟨d, [size], true⟩
  else if pkt.len = RedrawMethod.winch.toU8 then ⟨d, [size, .ptyKill 28], true⟩
  else ⟨d, [size], true⟩

/-- `handle_kill`: the signal is `len`, `SIGTERM` when that is zero. -/
def handleKill (d : SessionDaemon) (pkt : Packet) : Handled :=
  ⟨d, [.ptyKill (if pkt.len ≠ 0 then pkt.len.toNat else 15)], true⟩

/-- The `match` of `handle_client_packets` on the packet's type. -/
def dispatch (d : SessionDaemon) (i : Nat) (cfd : RawFd) (pkt : Packet) (p : PacketAns) : Handled :=
  match MsgType.fromU8 pkt.msgType with
  | some .push => d.handlePush pkt p.pty
  | some .attach => d.handleAttach i cfd pkt p.writes
  | some .detach => d.handleDetach i
  | some .winch => d.handleWinch pkt
  | some .redraw => d.handleRedraw pkt p.term p.pty
  | some .kill => d.handleKill pkt
  | some .forceDetach => d.handleForceDetach
  | some .info => d.handleInfo cfd p.writes
  | none => ⟨d, [], true⟩

/-- Closing a client and taking it out of `clients`. -/
def drop (h : Handled) (i : Nat) (cfd : RawFd) : Handled :=
  ⟨{ h.d with clients := swapRemove h.d.clients i }, h.fx ++ [.closed cfd], false⟩

/-- One readable client's turn in `handle_client_packets`: `keep` says whether the loop moves on to the next index. -/
def visit (d : SessionDaemon) (i : Nat) (cfd : RawFd) (p : PacketAns) : Handled :=
  let res := (Packet.readFrom p.inp p.reads).res
  let here : Handled := ⟨d, [.read cfd res], true⟩
  match res with
  | .ok pkt =>
    let h := d.dispatch i cfd pkt p
    let h : Handled := ⟨h.d, .read cfd res :: h.fx, h.keep⟩
    if h.keep then h else drop h i cfd
  | .error .eof => drop here i cfd
  | .error .wouldBlock => here
  | .error (.io _) => drop here i cfd

/-- The loop of `handle_client_packets` from index `i` on.  Every round moves on or removes a client, so as many rounds
as there are clients are enough. -/
def packetLoop (rfds : FdSet) (ans : RawFd → PacketAns) : Nat → Nat → SessionDaemon → SessionDaemon × List Effect
  | 0, _, d => (d, [])
  | fuel + 1, i, d =>
    match d.clients[i]? with
    | none => (d, [])
    | some c =>
      if c.fd ∈ rfds then
        let h := d.visit i c.fd (ans c.fd)
        let o := packetLoop rfds ans fuel (if h.keep then i + 1 else i) h.d
        (o.1, h.fx ++ o.2)
      else packetLoop rfds ans fuel (i + 1) d

def handleClientPackets (d : SessionDaemon) (rfds : FdSet) (ans : RawFd → PacketAns) : SessionDaemon × List Effect :=
  packetLoop rfds ans d.clients.length 0 d

/-- The eviction in `run`, after the batch of packets. -/
def evict (d : SessionDaemon) : SessionDaemon × List Effect :=
  if d.evictAttached then
    ({ d with evictAttached := false, clients := d.clients.filter (fun c => !c.attached) },
      (d.clients.filter (·.attached)).map (fun c => .closed c.fd))
  else (d, [])

/-! ## Output -/

/-- One client's part of `drain_replay`. -/
def drainClient (sb : Scrollback) (wfds : FdSet) (ans : RawFd → List WriteRet) (c : Client) : Client × List Effect :=
  if c.replayRemaining > 0 ∧ c.fd ∈ wfds then
    let o := ReplayState.drain sb ⟨c.replayHead, c.replayRemaining⟩ (ans c.fd)
    ({ c with
        replayHead := o.rs.head
        replayRemaining := o.rs.remaining
        attached := if o.ok = true ∧ o.rs.remaining = 0 then true else c.attached },
      [.replayed c.fd o.sent])
  else (c, [])

def drainReplay (d : SessionDaemon) (wfds : FdSet) (ans : RawFd → List WriteRet) : SessionDaemon × List Effect :=
  ({ d with clients := d.clients.map (fun c => (drainClient d.scrollback.toScrollback wfds ans c).1) },
    d.clients.flatMap (fun c => (drainClient d.scrollback.toScrollback wfds ans c).2))

/-- What the kernel answers in one round of the loop of `send_to_clients`: `select`, and the write to each client. -/
structure Round where
  sel : SelectRet
  wrote : RawFd → WriteRet

/-- The clients, what was done, and whether `send_to_clients` returned (else it is still in its loop). -/
structure SendOut where
  clients : List Client
  fx : List Effect
  returned : Bool
deriving DecidableEq

/-- The write to one client in a round: none unless it is attached and its descriptor is ready. -/
def liveWrite (wfds : FdSet) (wrote : RawFd → WriteRet) (data : List Byte) (c : Client) : Option (Except Errno Nat) :=
  if c.attached = true ∧ c.fd ∈ wfds then some ((wrote c.fd).ret data.length) else none

def isWhole (data : List Byte) : Option (Except Errno Nat) → Bool
  | some (.ok n) => n == data.length
  | _ => false

/-- A write error or a partial write, for which the client is closed and removed. -/
def isBad (data : List Byte) : Option (Except Errno Nat) → Bool
  | some (.ok n) => n != data.length
  | some (.error e) => e != .eagain
  | none => false

def liveFx (data : List Byte) (c : Client) : Option (Except Errno Nat) → List Effect
  | some (.ok n) => [.live c.fd (data.take n)]
  | _ => []

def sendLoop (listenerFd : RawFd) (data : List Byte) : List Round → List Client → SendOut
  | [], cs => ⟨cs, [], false⟩
  | r :: rs, cs =>
    match fdSelect [listenerFd] ((cs.filter (·.attached)).map (·.fd)) r.sel with
    | .error .eintr => sendLoop listenerFd data rs cs
    | .error _ => ⟨cs, [], true⟩
    | .ok (rfds, wfds) =>
      let badFds := (cs.filter (fun c => isBad data (liveWrite wfds r.wrote data c))).map (·.fd)
      let anyWritten := cs.any (fun c => isWhole data (liveWrite wfds r.wrote data c))
      let fx := cs.flatMap (fun c => liveFx data c (liveWrite wfds r.wrote data c)) ++ badFds.map .closed
      let cs' := cs.filter (fun c => c.fd ∉ badFds)
      if anyWritten = true ∨ listenerFd ∈ rfds ∨ cs'.filter (·.attached) = [] then ⟨cs', fx, true⟩
      else
        let o := sendLoop listenerFd data rs cs'
        { o with fx := fx ++ o.fx }

def sendToClients (d : SessionDaemon) (data : List Byte) (rounds : List Round) : SendOut :=
  if d.clients.filter (·.attached) = [] then ⟨d.clients, [], true⟩
  else sendLoop d.listenerFd data rounds d.clients

/-- A chunk of PTY output: kept in the scrollback, written to the log, sent to the attached clients. -/
def forward (d : SessionDaemon) (data : List Byte) (took : Nat) (rounds : List Round) : SessionDaemon × List Effect :=
  let o := { d with scrollback := d.scrollback.append data }.logData data took
  ({ o.1 with clients := (o.1.sendToClients data rounds).clients }, o.2 ++ (o.1.sendToClients data rounds).fx)

def cleanup (d : SessionDaemon) (took : Nat) : SessionDaemon × List Effect :=
  let marker := "\r\n[" ++ d.progname ++ ": session '" ++ sessionShortname d.sockname ++ "' ended]\r\n"
  let o := d.logData (bytesOf marker) took
  ({ o.1 with log := none }, o.2 ++ [.removeFile d.sockname])

/-! ## The event loop -/

structure TurnAns where
  sel : SelectRet
  accept : AcceptRet
  packets : RawFd → PacketAns
  drains : RawFd → List WriteRet
  /-- what the read of the PTY master returns, a chunk of at most `bufsize` bytes -/
  ptyRead : Except Errno (List Byte)
  rounds : List Round
  /-- the exit status `waitpid` gives, when the child exited by itself -/
  status : Option Nat
  /-- how much of what it is given the log file takes -/
  took : Nat

/-- Where the daemon is after a turn: at the top of the loop, still in the loop of `send_to_clients`, or gone. -/
inductive Next
  | again
  | sending
  | exited (status : Nat)
deriving DecidableEq, Repr

structure TurnOut where
  d : SessionDaemon
  fx : List Effect
  next : Next

/-- The end of `handle_pty_output`, when the PTY is at its end: clean up and exit with the child's status. -/
def hangup (d : SessionDaemon) (k : TurnAns) : TurnOut :=
  ⟨(d.cleanup k.took).1, (d.cleanup k.took).2, .exited (k.status.getD 1)⟩

def handlePtyOutput (d : SessionDaemon) (rfds : FdSet) (k : TurnAns) : TurnOut :=
  if d.pty.fd ∈ rfds then
    match k.ptyRead with
    | .ok [] => d.hangup k
    | .ok (b :: bs) =>
      let data := (b :: bs).take bufsize
      let returned := ({ d with scrollback := d.scrollback.append data }.sendToClients data k.rounds).returned
      ⟨(d.forward data k.took k.rounds).1, (d.forward data k.took k.rounds).2,
        if returned then .again else .sending⟩
    | .error (.other _) => d.hangup k
    | .error _ => ⟨d, [], .again⟩
  else ⟨d, [], .again⟩

def turn (d : SessionDaemon) (k : TurnAns) : TurnOut :=
  let b := d.buildFdSets
  match fdSelect d.readSet d.writeSet k.sel with
  | .error .eintr => ⟨b.1, b.2, .again⟩
  | .error _ => ⟨(b.1.cleanup k.took).1, b.2 ++ (b.1.cleanup k.took).2, .exited 0⟩
  | .ok (rfds, wfds) =>
    let a := if d.listenerFd ∈ rfds then b.1.acceptClient k.accept k.took else (b.1, [])
    let p := a.1.handleClientPackets rfds k.packets
    let e := p.1.evict
    let r := e.1.drainReplay wfds k.drains
    let o := r.1.handlePtyOutput rfds k
    ⟨o.d, b.2 ++ a.2 ++ p.2 ++ e.2 ++ r.2 ++ o.fx, o.next⟩

end SessionDaemon

end Zatch
