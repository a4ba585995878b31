import Zatch.Replay
import Zatch.Lib.LineWriter
/-!
# AttachRace — a client that replays the log and then attaches (`session.rs`)

`Session::attach` on a session with a log connects, copies the log file to its stdout up to the end of it, and only then
sends its Attach, which the daemon answers without a replay.  `Race` is this client and the daemon over the log file and
the socket between them; `Race.step` lets either take its next step, in any order.  What the daemon reads from the PTY
after the client has seen the end of the file and before the daemon sees the Attach is in neither stream
(`replay_log_joins_live`).
-/
namespace Zatch

open Machine (run Along)

/-! ## The log file -/

/-- A byte of the log file: the PTY's output, or a warning of the daemon. -/
inductive LogByte
  | pty (b : Byte)
  | warn (b : Byte)
deriving DecidableEq, Repr

def LogByte.val : LogByte → Byte
  | .pty b => b
  | .warn b => b

def LogByte.ofPty : LogByte → Option Byte
  | .pty b => some b
  | .warn _ => none

def ptyBytes (bs : List LogByte) : List Byte := bs.filterMap LogByte.ofPty

@[simp] theorem ptyBytes_nil : ptyBytes [] = [] := rfl

@[simp] theorem ptyBytes_append (xs ys : List LogByte) : ptyBytes (xs ++ ys) = ptyBytes xs ++ ptyBytes ys :=
  List.filterMap_append

@[simp] theorem ptyBytes_pty (bs : List Byte) : ptyBytes (bs.map .pty) = bs := by
  simp [ptyBytes, List.filterMap_map, Function.comp_def, LogByte.ofPty]

@[simp] theorem ptyBytes_warn (bs : List Byte) : ptyBytes (bs.map .warn) = [] := by
  simp [ptyBytes, List.filterMap_map, Function.comp_def, LogByte.ofPty]

/-- A byte of the log is the byte, whatever it is there for. -/
theorem map_val_map {mark : Byte → LogByte} (h : ∀ b, (mark b).val = b) (bs : List Byte) :
    (bs.map mark).map LogByte.val = bs := by
  rw [List.map_map, show LogByte.val ∘ mark = id from funext h, List.map_id]

def Effect.logPiece : Effect → Option (Nat × List Byte)
  | .logWrote pos bs => some (pos, bs)
  | _ => none

def logWrites (fx : List Effect) : List (Nat × List Byte) := fx.filterMap Effect.logPiece

@[simp] theorem logWrites_append (fx fy : List Effect) : logWrites (fx ++ fy) = logWrites fx ++ logWrites fy :=
  List.filterMap_append

def writeLog (mark : Byte → LogByte) (file : List LogByte) (ws : List (Nat × List Byte)) : List LogByte :=
  ws.foldl (fun file w => Cyclic.splice file w.1 (w.2.map mark)) file

namespace SessionDaemon

/-- What an act writes to the log is. -/
def Act.mark : Act → Byte → LogByte
  | .output _ _ _ => .pty
  | _ => .warn

def LogTakes : Act → Prop
  | .output data took _ => data.length ≤ took
  | _ => True

theorem logWrites_of_plain {fx : List Effect} (h : ∀ e ∈ fx, e.plain = true) : logWrites fx = [] :=
  List.filterMap_eq_nil_iff.2 (fun e he => by
    have := h e he
    cases e <;> first | rfl | cases this)

theorem packet_log (d : SessionDaemon) (i : Nat) (p : PacketAns) :
    logWrites (d.act (.packet i p)).2 = [] ∧ (d.act (.packet i p)).1.log = d.log := by
  cases hi : d.clients[i]? with
  | none =>
    rw [act_packet_none d p hi]
    exact ⟨rfl, rfl⟩
  | some c =>
    obtain ⟨fx, hfx, hv⟩ := visit_spec d p hi
    have hno : logWrites fx = [] := by
      rcases hfx with ⟨hs, -⟩ | rfl
      · exact logWrites_of_plain hs
      · rfl
    rw [act_packet d p hi, hv]
    cases c.next d.scrollback p with
    | some c' => exact ⟨hno, rfl⟩
    | none =>
      refine ⟨?_, rfl⟩
      show logWrites (fx ++ [.closed c.fd]) = []
      rw [logWrites_append, hno]
      rfl

/-- The line the daemon leaves in its log when it turns a connection away. -/
def warnLine (d : SessionDaemon) : List Byte :=
  bytesOf ("[" ++ d.progname ++ ": warn: " ++ "could not set client socket non-blocking; connection rejected" ++ "]\r\n")

/-- **What an act writes to the log**: nothing, or one piece at its end, of a chunk of output or of the daemon's warning. -/
theorem act_log {d : SessionDaemon} {l : SessionLog} (hl : d.log = some l) (a : Act) :
    (a.chunk = none ∧ logWrites (d.act a).2 = [] ∧ (d.act a).1.log = some l) ∨
    ∃ bs, logWrites (d.act a).2 = [(l.pos, bs)] ∧ (d.act a).1.log = some { l with pos := l.pos + bs.length } ∧
      (∀ data took rounds, a = .output data took rounds → bs = data.take took) ∧
      (a.chunk = none → ∃ n, bs = d.warnLine.take n) := by
  cases a with
  | poll => exact .inl ⟨rfl, rfl, hl⟩
  | accept r took =>
    rcases r with ⟨fd, nb, cred⟩ | e
    · cases nb with
      | true => exact .inl ⟨rfl, rfl, hl⟩
      | false =>
        refine .inr ⟨d.warnLine.take took, ?_, ?_, fun _ _ _ h => ?_, fun _ => ⟨took, rfl⟩⟩
        · simp only [act, acceptClient, logWarn, logData, hl, SessionLog.write]
          rfl
        · simp only [act, acceptClient, logWarn, logData, hl, SessionLog.write, warnLine]
        · cases h
    · exact .inl ⟨rfl, rfl, hl⟩
  | packet i p => exact .inl ⟨rfl, (packet_log d i p).1, (packet_log d i p).2.trans hl⟩
  | evict =>
    refine .inl ⟨rfl, ?_, ?_⟩
    · simp only [act, evict]
      split
      · simp [logWrites, List.filterMap_map, Function.comp_def, Effect.logPiece]
      · rfl
    · simp only [act, evict]
      split <;> exact hl
  | drain wfds ans =>
    refine .inl ⟨rfl, List.filterMap_eq_nil_iff.2 (fun e he => ?_), hl⟩
    obtain ⟨fd, sent, rfl⟩ := mem_drain he
    rfl
  | output data took rounds =>
    refine .inr ⟨data.take took, ?_, ?_, fun data' took' rounds' h => ?_, fun h => ?_⟩
    · have hsent : ∀ d' : SessionDaemon, logWrites (d'.sendToClients data rounds).fx = [] := fun d' => by
        unfold sendToClients
        split
        · rfl
        · refine List.filterMap_eq_nil_iff.2 (fun e he => ?_)
          rcases sendLoop_cases _ _ _ _ e he with ⟨g, bs, rfl⟩ | ⟨g, rfl⟩ <;> rfl
      simp only [act, forward, logData, hl, logWrites_append, hsent]
      rfl
    · simp only [act, forward, logData, hl, SessionLog.write]
    · obtain ⟨rfl, rfl, rfl⟩ := Act.output.inj h
      rfl
    · cases h

/-- **The log file after an act**: what was there, and the chunk, when one is read and the log takes it. -/
theorem act_file {d : SessionDaemon} {l : SessionLog} (hl : d.log = some l) {file : List LogByte}
    (hpos : l.pos = file.length) {a : Act} (ha : LogTakes a) :
    ∃ new l', writeLog a.mark file (logWrites (d.act a).2) = file ++ new ∧ ptyBytes new = a.chunk.getD [] ∧
      (d.act a).1.log = some l' ∧ l'.pos = (file ++ new).length := by
  rcases act_log hl a with ⟨hch, hw, hlog⟩ | ⟨bs, hw, hlog, hbs, -⟩
  · refine ⟨[], l, ?_, by rw [hch]; rfl, hlog, by rw [List.append_nil, hpos]⟩
    rw [hw, List.append_nil]
    rfl
  · refine ⟨bs.map a.mark, _, ?_, ?_, hlog, by simp [hpos]⟩
    · rw [hw]
      show Cyclic.splice file l.pos (bs.map a.mark) = _
      rw [Cyclic.splice, hpos, List.take_length, List.drop_of_length_le (by omega), List.append_nil]
    · cases a with
      | output data took rounds =>
        rw [hbs data took rounds rfl, List.take_of_length_le ha]
        exact ptyBytes_pty data
      | _ => exact ptyBytes_warn bs

/-! ## The client on the socket -/

def attachRead (f : RawFd) (d : SessionDaemon) : Act → Bool
  | .packet i p =>
    match d.clients[i]?, p.res with
    | some c, .ok pkt => decide (c.fd = f ∧ MsgType.fromU8 pkt.msgType = some .attach)
    | _, _ => false
  | _ => false

theorem attachRead_other {f : RawFd} {d : SessionDaemon} {i : Nat} {c : Client} (hi : d.clients[i]? = some c) (hc : c.fd ≠ f)
    (p : PacketAns) : attachRead f d (.packet i p) = false := by
  simp only [attachRead, hi]
  cases p.res with
  | ok pkt => exact decide_eq_false (fun h => hc h.1)
  | error e => rfl

/-- A packet that neither asks for a replay nor ends the attachment. -/
def Steady (pkt : Packet) : Prop :=
  MsgType.fromU8 pkt.msgType = some .attach ∧ pkt.len ≠ 0 ∨
    MsgType.fromU8 pkt.msgType ∈ [some .push, some .winch, some .redraw]

def SteadyAt (f : RawFd) (d : SessionDaemon) : Act → Prop
  | .packet i p => ∀ c, d.clients[i]? = some c → c.fd = f → ∀ pkt, p.res = .ok pkt → Steady pkt
  | _ => True

theorem next_steady {r : Ring} {p : PacketAns} {pkt : Packet} (hr : p.res = .ok pkt) (hs : Steady pkt) (c : Client) :
    Client.replayOn r p = [] ∧
    c.next r p = some { c with attached := c.attached || decide (MsgType.fromU8 pkt.msgType = some .attach) } := by
  rcases hs with ⟨ht, hlen⟩ | ht
  · have hat : Client.atOnce r pkt = true := decide_eq_true (.inl hlen)
    rw [Client.replayOn_attach ⟨hr, ht⟩, Client.next_attach ⟨hr, ht⟩, hat, ht]
    simp
  · simp only [Client.replayOn, Client.next, hr]
    rcases List.mem_cons.1 ht with h | ht
    · rw [h]; simp
    · rcases List.mem_cons.1 ht with h | ht
      · rw [h]; simp
      · rw [List.mem_singleton.1 ht]; simp

theorem attachRead_absent {d : SessionDaemon} {f : RawFd} (h : clientsAt d.clients f = []) (a : Act) :
    attachRead f d a = false := by
  cases a with
  | packet i p =>
    cases hi : d.clients[i]? with
    | none => simp [attachRead, hi]
    | some c =>
      have hc : c.fd ≠ f := fun hf => not_mem_fds_of_clientsAt h (List.mem_map.2 ⟨c, List.mem_of_getElem? hi, hf⟩)
      exact attachRead_other hi hc p
  | _ => rfl

/-- **A client with no replay pending, that sends steady packets and takes every chunk in full**: it is sent the chunks
while it is attached and nothing else, and it is attached from its Attach on. -/
theorem act_present {d : SessionDaemon} {f : RawFd} {c : Client} (h : clientsAt d.clients f = [c])
    (hrem : c.replayRemaining = 0) {a : Act} (hposs : d.Possible a) (hs : SteadyAt f d a) (hacc : AcceptsAt f d a)
    (hpres : Present f (d.act a).1) :
    outTo f (d.act a).2 = (if c.attached then a.chunk.getD [] else []) ∧
    clientsAt (d.act a).1.clients f = [{ c with attached := c.attached || attachRead f d a }] := by
  obtain ⟨hmem, rfl⟩ := fd_of_clientsAt h
  have hgone : clientsAt (d.act a).1.clients c.fd ≠ [] := fun hnil => not_mem_fds_of_clientsAt hnil hpres
  have htaken : ∀ data took rounds, a = .output data took rounds → c.attached = true →
      clientsAt (d.act a).1.clients c.fd = [c] ∧ liveTo c.fd (d.act a).2 = data := fun data took rounds ha hatt => by
    subst ha
    exact output_accepting hatt h hacc
  have hstep := act_client h hposs
  rw [act_out]
  generalize clientsAt (d.act a).1.clients c.fd = after, replayedTo c.fd (d.act a).2 = rep,
    liveTo c.fd (d.act a).2 = lv at hstep hgone htaken ⊢
  cases hstep with
  | apart hchunk hpkt =>
    have hread : attachRead c.fd d a = false := by
      cases a with
      | packet i p =>
        cases hi : d.clients[i]? with
        | none => simp [attachRead, hi]
        | some x => exact attachRead_other hi (hpkt i p rfl x hi) p
      | _ => rfl
    rw [hchunk, hread, Bool.or_false]
    simp
  | @packet i p hi =>
    cases hr : p.res with
    | ok pkt =>
      obtain ⟨hno, hn⟩ := next_steady (r := d.scrollback) hr (hs c hi rfl pkt hr) c
      have hread : attachRead c.fd d (.packet i p) = decide (MsgType.fromU8 pkt.msgType = some .attach) := by
        simp [attachRead, hi, hr]
      rw [hno, hn, hread]
      simp [Act.chunk]
    | error e =>
      have hread : attachRead c.fd d (.packet i p) = false := by simp [attachRead, hi, hr]
      cases hn : c.next d.scrollback p with
      | none => rw [hn] at hgone; exact absurd rfl hgone
      | some c' =>
        obtain rfl := Client.next_of_error hr hn
        rw [Client.replayOn_of_error hr, hread]
        simp [Act.chunk]
  | evicted => exact absurd rfl hgone
  | drained wfds ans =>
    rw [drainClient_of_done _ _ _ hrem]
    simp [Act.chunk, attachRead]
  | @passed data took rounds =>
    cases hatt : c.attached with
    | true => exact absurd (htaken data took rounds rfl hatt).2.symm hposs
    | false => exact ⟨rfl, by rw [← hatt]; simp [attachRead]⟩
  | taken hatt => exact ⟨by rw [if_pos hatt]; rfl, by simp [attachRead]⟩
  | cut => exact absurd rfl hgone

end SessionDaemon

/-! ## The race -/

/-- How far the client is: not connected; in `replay_log` at an offset of the file; at the end of the file; its Attach
sent; its Attach handled. -/
inductive Phase
  | away
  | replaying (off : Nat)
  | replayed
  | sent
  | attached
deriving DecidableEq

/-- The client has seen the end of the log, and the daemon has not seen its Attach. -/
def Phase.between : Phase → Bool
  | .replayed => true
  | .sent => true
  | _ => false

/-- The packets the daemon can read from the client: its Attach once that is sent, and once it is attached what is typed,
the window's size, and the redraw it asks for. -/
def Phase.Sends : Phase → Packet → Prop
  | .sent, pkt => pkt = Packet.encode .attach 1
  | .attached, pkt => MsgType.fromU8 pkt.msgType ∈ [some .push, some .winch, some .redraw]
  | _, _ => False

def LogByte.endsLine (b : LogByte) : Bool := b.val == 10

/-- The buffer of `std::io::stdout`. -/
def stdoutCap : Nat := 1024

structure Race where
  d : SessionDaemon
  /-- the log file -/
  file : List LogByte
  phase : Phase
  /-- what the client's stdout holds back -/
  held : List LogByte
  /-- what the client's socket holds of the PTY's output -/
  inflight : List Byte
  /-- the PTY's output that the log holds when the client connects -/
  base : List Byte
  /-- the chunks read since -/
  since : List Byte
  /-- the chunks read between the end of the file and the handling of the Attach -/
  missed : List Byte

/-- A step of either side: the client's `connect`, a read of `replay_log`, the Attach, a read of the socket, and the flush of
stdout, by a `println!` or at the client's exit; an act of the daemon's. -/
inductive Move
  | connect
  | readLog (n : Nat)
  | sendAttach
  | display (n : Nat)
  | flush
  | daemon (a : SessionDaemon.Act)

namespace Race

open SessionDaemon (act Act attachRead clientsAt fd_of_clientsAt)

def after (f : RawFd) (r : Race) (a : Act) : Race where
  d := (r.d.act a).1
  file := writeLog a.mark r.file (logWrites (r.d.act a).2)
  phase := if attachRead f r.d a then .attached else r.phase
  held := r.held
  inflight := r.inflight ++ outTo f (r.d.act a).2
  base := r.base
  since := r.since ++ a.chunk.getD []
  missed := if r.phase.between then r.missed ++ a.chunk.getD [] else r.missed

/-- One step, and what it puts on the client's terminal. -/
def step (f : RawFd) (r : Race) : Move → Race × List LogByte
  | .connect => ({ r with phase := .replaying 0, base := ptyBytes r.file, since := [] }, [])
  | .readLog n =>
    match r.phase with
    | .replaying off =>
      let bs := (r.file.drop off).take (min n bufsize)
      if bs = [] then ({ r with phase := .replayed }, [])
      else
        let o := LineWriter.writeAll stdoutCap LogByte.endsLine r.held bs
        ({ r with phase := .replaying (off + bs.length), held := o.held }, o.out)
    | _ => (r, [])
  | .sendAttach => ({ r with phase := .sent }, [])
  | .display n =>
    ({ r with inflight := r.inflight.drop (min n bufsize) }, (r.inflight.take (min n bufsize)).map .pty)
  | .flush => ({ r with held := [] }, r.held)
  | .daemon a => (r.after f a, [])

/-- What an act of the daemon may be: the client's connection is accepted once it has connected, it sends what its program
sends, the log and the client take every chunk in full, and the client is not closed. -/
structure Fair (f : RawFd) (r : Race) (a : Act) : Prop where
  possible : r.d.Possible a
  connected : ∀ nb cred took, a = .accept (.conn f nb cred) took → r.phase ≠ .away ∧ nb = true
  sends : ∀ i p, a = .packet i p → ∀ c, r.d.clients[i]? = some c → c.fd = f → ∀ pkt, p.res = .ok pkt → r.phase.Sends pkt
  accepts : SessionDaemon.AcceptsAt f r.d a
  logs : SessionDaemon.LogTakes a
  stays : SessionDaemon.Present f r.d → SessionDaemon.Present f (r.d.act a).1

/-- The steps in the order of the client's program, a read of the log file returning nothing only at its end. -/
def Allowed (f : RawFd) (r : Race) : Move → Prop
  | .connect => r.phase = .away
  | .readLog n => 0 < n
  | .sendAttach => r.phase = .replayed
  | .display _ => r.phase = .sent ∨ r.phase = .attached
  | .flush => True
  | .daemon a => r.Fair f a

structure Start (f : RawFd) (r : Race) : Prop where
  reachable : ∃ fx, SessionDaemon.Reachable r.d fx
  free : clientsAt r.d.clients f = []
  log : ∃ l, r.d.log = some l ∧ l.pos = r.file.length
  away : r.phase = .away
  empty : r.held = [] ∧ r.inflight = [] ∧ r.missed = []

/-- No chunk is read between the end of the file and the handling of the Attach. -/
def NoneBetween (r : Race) : Move → Prop
  | .daemon (.output _ _ _) => r.phase.between = false
  | _ => True

/-- No live output is displayed while stdout holds back a piece of the log. -/
def Unheld (r : Race) : Move → Prop
  | .display _ => r.inflight = [] ∨ r.held = []
  | _ => True

instance (r : Race) (m : Move) : Decidable (r.NoneBetween m) :=
  match m with
  | .daemon (.output _ _ _) => inferInstanceAs (Decidable (r.phase.between = false))
  | .daemon .poll | .daemon (.accept _ _) | .daemon (.packet _ _) | .daemon .evict | .daemon (.drain _ _) => isTrue trivial
  | .connect | .readLog _ | .sendAttach | .display _ | .flush => isTrue trivial

instance (r : Race) (m : Move) : Decidable (r.Unheld m) :=
  match m with
  | .display _ => inferInstanceAs (Decidable (r.inflight = [] ∨ r.held = []))
  | .connect | .readLog _ | .sendAttach | .flush | .daemon _ => isTrue trivial

/-- What the client has got of the PTY's output when `out` is on its terminal: that, what stdout holds back, and what its
socket holds. -/
def got (r : Race) (out : List LogByte) : List Byte := ptyBytes (out ++ r.held) ++ r.inflight

/-- **The log and the live stream join**: what the client has got is the beginning of the PTY's output, and the whole of it
once its Attach is handled. -/
def Joined (r : Race) (out : List LogByte) : Prop :=
  r.got out <+: r.base ++ r.since ∧ (r.phase = .attached → r.got out = r.base ++ r.since)

/-! ## One step -/

/-- The daemon's side of the client: none, or one with no replay pending, attached once its Attach is handled. -/
def Linked (f : RawFd) (r : Race) : Prop :=
  clientsAt r.d.clients f = [] ∧ r.phase ≠ .attached ∨
  ∃ c, clientsAt r.d.clients f = [c] ∧ c.replayRemaining = 0 ∧ r.phase ≠ .away ∧ (c.attached = true ↔ r.phase = .attached)

/-- Where the bytes are, by phase; with `q`, stdout holds nothing back when live output is displayed. -/
def Streamed (q : Prop) (r : Race) (out : List LogByte) : Prop :=
  match r.phase with
  | .away => out = [] ∧ r.held = [] ∧ r.inflight = [] ∧ r.missed = []
  | .replaying off => out ++ r.held = r.file.take off ∧ off ≤ r.file.length ∧ ptyBytes r.file = r.base ++ r.since ∧
      r.inflight = [] ∧ r.missed = []
  | .replayed | .sent => ptyBytes (out ++ r.held) ++ r.missed = r.base ++ r.since ∧ r.inflight = []
  | .attached => ∃ copied live, (ptyBytes out).Perm (ptyBytes copied ++ live) ∧
      ptyBytes (copied ++ r.held) ++ r.missed ++ (live ++ r.inflight) = r.base ++ r.since ∧
      (q → ptyBytes out = ptyBytes copied ++ live ∧ (live = [] ∨ r.held = []))

structure Inv (f : RawFd) (q : Prop) (r : Race) (out : List LogByte) : Prop where
  nodup : (r.d.clients.map (·.fd)).Nodup
  log : ∃ l, r.d.log = some l ∧ l.pos = r.file.length
  linked : r.Linked f
  streamed : r.Streamed q out

/-- A move of the client alone keeps the daemon's side of it, up to its Attach. -/
theorem Linked.of_phase {f : RawFd} {r r' : Race} (hl : r.Linked f) (hd : r'.d = r.d) (hr : r.phase ≠ .attached)
    (hr' : r'.phase ≠ .attached) (haway : r'.phase = .away → r.phase = .away) : r'.Linked f := by
  unfold Linked
  rw [hd]
  rcases hl with ⟨hnil, -⟩ | ⟨c, hc, hrem, hw, hatt⟩
  · exact .inl ⟨hnil, hr'⟩
  · exact .inr ⟨c, hc, hrem, fun h => hw (haway h), by simp [hatt, hr, hr']⟩

theorem sends_steady {ph : Phase} {pkt : Packet} (h : ph.Sends pkt) : SessionDaemon.Steady pkt := by
  cases ph with
  | sent =>
    obtain rfl : pkt = Packet.encode .attach 1 := h
    exact .inl ⟨MsgType.fromU8_toU8 .attach, by decide⟩
  | attached => exact .inr h
  | _ => exact absurd h id

theorem Fair.steady {f : RawFd} {r : Race} {a : Act} (h : r.Fair f a) : SessionDaemon.SteadyAt f r.d a := by
  cases a with
  | packet i p => exact fun c hi hf pkt hr => sends_steady (h.sends i p rfl c hi hf pkt hr)
  | _ => trivial

theorem Fair.sent_of_attachRead {f : RawFd} {r : Race} {a : Act} (h : r.Fair f a) (ha : attachRead f r.d a = true) :
    r.phase = .sent ∧ a.chunk = none := by
  cases a with
  | packet i p =>
    refine ⟨?_, rfl⟩
    unfold attachRead at ha
    simp only at ha
    split at ha
    · rename_i c pkt hi hr
      obtain ⟨hf, ht⟩ := of_decide_eq_true ha
      have hsends := h.sends i p rfl c hi hf pkt hr
      cases hph : r.phase with
      | sent => rfl
      | attached =>
        rw [hph] at hsends
        have : MsgType.fromU8 pkt.msgType ∈ [some MsgType.push, some .winch, some .redraw] := hsends
        rw [ht] at this
        simp at this
      | away => rw [hph] at hsends; exact absurd hsends id
      | replaying off => rw [hph] at hsends; exact absurd hsends id
      | replayed => rw [hph] at hsends; exact absurd hsends id
    · cases ha
  | _ => cases ha

/-- **The client's side of an act**: the chunk read is sent to it when it is attached, and nothing else is. -/
theorem after_linked {f : RawFd} {r : Race} {a : Act} (hl : r.Linked f) (h : r.Fair f a) :
    outTo f (r.d.act a).2 = (if r.phase = .attached then a.chunk.getD [] else []) ∧ (r.after f a).Linked f := by
  rcases hl with ⟨hnil, hph⟩ | ⟨c, hc, hrem, hph, hatt⟩
  · obtain ⟨hrep, hlive, hcl⟩ := SessionDaemon.act_absent hnil a
    have hread := SessionDaemon.attachRead_absent hnil a
    rw [SessionDaemon.act_out, hrep, hlive, if_neg hph]
    refine ⟨rfl, ?_⟩
    unfold Linked
    simp only [after, hread, Bool.false_eq_true, if_false]
    rcases hcl with hcl | ⟨cred, took, rfl, hcl⟩
    · exact .inl ⟨hcl, hph⟩
    · exact .inr ⟨_, hcl, rfl, (h.connected true cred took rfl).1, by simp [hph]⟩
  · have hpres : SessionDaemon.Present f r.d := by
      obtain ⟨hmem, rfl⟩ := fd_of_clientsAt hc
      exact List.mem_map.2 ⟨c, hmem, rfl⟩
    obtain ⟨hout, hcl⟩ := SessionDaemon.act_present hc hrem h.possible h.steady h.accepts (h.stays hpres)
    refine ⟨?_, .inr ⟨_, hcl, hrem, ?_, ?_⟩⟩
    · rw [hout]
      by_cases hp : r.phase = .attached
      · rw [if_pos (hatt.2 hp), if_pos hp]
      · rw [if_neg (fun ha => hp (hatt.1 ha)), if_neg hp]
    · simp only [after]
      split
      · simp
      · exact hph
    · simp only [after, Bool.or_eq_true, hatt]
      split
      · rename_i hread; simp [hread]
      · rename_i hread; simp [hread]

theorem after_streamed {f : RawFd} {q : Prop} {r : Race} {out : List LogByte} (hI : r.Inv f q out) {a : Act}
    (h : r.Fair f a) : (r.after f a).Streamed q out := by
  obtain ⟨l, hl, hpos⟩ := hI.log
  obtain ⟨new, l', hfile, hnew, -, -⟩ := SessionDaemon.act_file hl hpos h.logs
  have hout := (after_linked hI.linked h).1
  have hS := hI.streamed
  have hphase : (r.after f a).phase = if attachRead f r.d a then .attached else r.phase := rfl
  cases hread : attachRead f r.d a with
  | true =>
    -- the Attach: what was copied is all, and nothing is live yet
    obtain ⟨hsent, hch⟩ := h.sent_of_attachRead hread
    rw [hread, if_pos rfl] at hphase
    rw [hsent] at hout
    simp only [Streamed, hsent] at hS
    obtain ⟨heq, hflight⟩ := hS
    simp only [Streamed, hphase]
    refine ⟨out, [], by simp, ?_, fun _ => ⟨(List.append_nil _).symm, .inl rfl⟩⟩
    simp only [after, hsent, Phase.between, hch, hout, hflight, Option.getD_none, List.append_nil, if_true]
    simpa using heq
  | false =>
    rw [hread, if_neg (by simp)] at hphase
    cases hp : r.phase with
    | away =>
      rw [hp, if_neg (by simp)] at hout
      simp only [Streamed, hp] at hS
      simp only [Streamed, hphase, hp]
      refine ⟨hS.1, hS.2.1, ?_, ?_⟩
      · simp only [after, hout, hS.2.2.1, List.append_nil]
      · simp only [after, hp, Phase.between, hS.2.2.2, Bool.false_eq_true, if_false]
    | replaying off =>
      rw [hp, if_neg (by simp)] at hout
      simp only [Streamed, hp] at hS
      obtain ⟨hcopied, hoff, hpty, hflight, hmiss⟩ := hS
      simp only [Streamed, hphase, hp]
      have hgrown : (r.after f a).file = r.file ++ new := hfile
      refine ⟨?_, ?_, ?_, ?_, ?_⟩
      · rw [hgrown, List.take_append_of_le_length hoff]
        exact hcopied
      · rw [hgrown, List.length_append]
        omega
      · rw [hgrown, ptyBytes_append, hpty, hnew]
        simp only [after, List.append_assoc]
      · simp only [after, hout, hflight, List.append_nil]
      · simp only [after, hp, Phase.between, hmiss, Bool.false_eq_true, if_false]
    | replayed | sent =>
      rw [hp, if_neg (by simp)] at hout
      simp only [Streamed, hp] at hS
      simp only [Streamed, hphase, hp]
      refine ⟨?_, ?_⟩
      · simp only [after, hp, Phase.between, if_true]
        rw [← List.append_assoc, hS.1, List.append_assoc]
      · simp only [after, hout, hS.2, List.append_nil]
    | attached =>
      rw [hp, if_pos rfl] at hout
      simp only [Streamed, hp] at hS
      obtain ⟨copied, live, hdisp, heq, hq⟩ := hS
      simp only [Streamed, hphase, hp]
      refine ⟨copied, live, hdisp, ?_, hq⟩
      simp only [after, hp, Phase.between, hout, Bool.false_eq_true, if_false]
      rw [← List.append_assoc live, ← List.append_assoc _ _ (a.chunk.getD []), heq, List.append_assoc]

theorem after_inv {f : RawFd} {q : Prop} {r : Race} {out : List LogByte} (hI : r.Inv f q out) {a : Act} (h : r.Fair f a) :
    (r.after f a).Inv f q out := by
  obtain ⟨l, hl, hpos⟩ := hI.log
  obtain ⟨new, l', hfile, -, hlog, hpos'⟩ := SessionDaemon.act_file hl hpos h.logs
  refine ⟨SessionDaemon.act_nodup hI.nodup h.possible, ⟨l', hlog, ?_⟩, (after_linked hI.linked h).2, after_streamed hI h⟩
  rw [hpos', show (r.after f a).file = r.file ++ new from hfile]

/-- **Every step keeps the bytes in their places.** -/
theorem step_inv {f : RawFd} {q : Prop} {r : Race} {out : List LogByte} (hI : r.Inv f q out) {m : Move}
    (h : r.Allowed f m) (hq : q → r.Unheld m) : (r.step f m).1.Inv f q (out ++ (r.step f m).2) := by
  have hS := hI.streamed
  cases m with
  | connect =>
    have haway : r.phase = .away := h
    simp only [Streamed, haway] at hS
    obtain ⟨rfl, hheld, hflight, hmiss⟩ := hS
    refine ⟨hI.nodup, hI.log, ?_, by simp [step, Streamed, hheld, hflight, hmiss]⟩
    exact hI.linked.of_phase rfl (by simp [haway]) (by simp [step]) (by simp [step])
  | readLog n =>
    have hn : 0 < n := h
    cases hp : r.phase with
    | replaying off =>
      have hrep : r.phase ≠ .attached := by simp [hp]
      simp only [Streamed, hp] at hS
      obtain ⟨hcopied, hoff, hpty, hflight, hmiss⟩ := hS
      simp only [step, hp]
      split
      · rename_i hnil
        -- nothing read: the end of the file
        have hend : r.file.length ≤ off := by
          have := congrArg List.length hnil
          simp only [List.length_take, List.length_drop, List.length_nil, bufsize] at this
          omega
        refine ⟨hI.nodup, hI.log, hI.linked.of_phase rfl hrep (by simp) (by simp), ?_, hflight⟩
        rw [List.append_nil]
        show ptyBytes (out ++ r.held) ++ r.missed = _
        rw [hcopied, List.take_of_length_le hend, hmiss, List.append_nil, hpty]
      · refine ⟨hI.nodup, hI.log, hI.linked.of_phase rfl hrep (by simp) (by simp), ?_, ?_, hpty, hflight, hmiss⟩
        · simp only
          rw [List.append_assoc, LineWriter.writeAll_conserves, ← List.append_assoc, hcopied, List.take_add]
          rw [← List.prefix_iff_eq_take.1 (List.take_prefix _ _)]
        · simp only [List.length_take, List.length_drop]
          omega
    | _ => simpa [step, hp] using hI
  | sendAttach =>
    have hrep : r.phase = .replayed := h
    simp only [Streamed, hrep] at hS
    refine ⟨hI.nodup, hI.log, ?_, by simpa [step, Streamed] using hS⟩
    exact hI.linked.of_phase rfl (by simp [hrep]) (by simp [step]) (by simp [step])
  | display n =>
    refine ⟨hI.nodup, hI.log, hI.linked, ?_⟩
    rcases h with hp | hp
    · simp only [Streamed, hp] at hS
      simpa [step, Streamed, hp, hS.2] using hS.1
    · simp only [Streamed, hp] at hS
      obtain ⟨copied, live, hperm, heq, hlive⟩ := hS
      simp only [step, Streamed, hp]
      refine ⟨copied, live ++ r.inflight.take (min n bufsize), ?_, ?_, fun hq' => ⟨?_, ?_⟩⟩
      · rw [ptyBytes_append, ptyBytes_pty, ← List.append_assoc]
        exact hperm.append_right _
      · rw [List.append_assoc live, List.take_append_drop, heq]
      · rw [ptyBytes_append, ptyBytes_pty, (hlive hq').1, List.append_assoc]
      · rcases hq hq' with hnil | hheld
        · rw [hnil, List.take_nil, List.append_nil]
          exact (hlive hq').2
        · exact .inr hheld
  | flush =>
    refine ⟨hI.nodup, hI.log, hI.linked, ?_⟩
    cases hp : r.phase with
    | away =>
      simp only [Streamed, hp] at hS
      simp only [step, Streamed, hp, hS.1, hS.2.1, hS.2.2, List.append_nil, and_self]
    | replaying off =>
      simp only [Streamed, hp] at hS
      simpa [step, Streamed, hp] using hS
    | replayed | sent =>
      simp only [Streamed, hp] at hS
      simpa [step, Streamed, hp] using hS
    | attached =>
      -- what was held back follows what was copied
      simp only [Streamed, hp] at hS
      obtain ⟨copied, live, hperm, heq, hlive⟩ := hS
      simp only [step, Streamed, hp]
      refine ⟨copied ++ r.held, live, ?_, ?_, fun hq' => ⟨?_, .inr trivial⟩⟩
      · rw [ptyBytes_append, ptyBytes_append, List.append_assoc]
        refine (hperm.append_right _).trans ?_
        rw [List.append_assoc]
        exact List.perm_append_comm.append_left _
      · rw [List.append_nil]
        exact heq
      · obtain ⟨hout, hnil | hnil⟩ := hlive hq'
        · rw [ptyBytes_append, hout, hnil, List.append_nil, List.append_nil, ptyBytes_append]
        · rw [hnil, List.append_nil, List.append_nil, hout]
  | daemon a =>
    show (r.after f a).Inv f q (out ++ [])
    rw [List.append_nil]
    exact after_inv hI h

/-! ## Every run -/

theorem Start.inv {f : RawFd} {r : Race} (h : r.Start f) (q : Prop) : r.Inv f q [] := by
  obtain ⟨fx, hd⟩ := h.reachable
  refine ⟨hd.nodup, h.log, .inl ⟨h.free, by simp [h.away]⟩, ?_⟩
  unfold Streamed
  rw [h.away]
  exact ⟨rfl, h.empty⟩

theorem inv_run {f : RawFd} {q : Prop} {r : Race} (hr : r.Start f) {ms : List Move}
    (hms : Along (step f) (Allowed f) r ms) (hq : Along (step f) (fun r m => q → r.Unheld m) r ms) :
    (run (step f) r ms).1.Inv f q (run (step f) r ms).2 := by
  have := Along.history (R := Inv f q) (fun r m out hI hm => step_inv hI hm.1 hm.2) (hr.inv q) (hms.and hq)
  rwa [List.nil_append] at this

theorem step_missed {f : RawFd} {r : Race} {m : Move} (h : r.Allowed f m) :
    (r.step f m).1.missed = [] ↔ r.missed = [] ∧ r.NoneBetween m := by
  cases m with
  | daemon a =>
    have hch : a.chunk.getD [] = [] ↔ a.chunk = none := by
      cases a with
      | output data took rounds =>
        have hdata : data ≠ [] := h.possible
        simp [SessionDaemon.Act.chunk, hdata]
      | _ => simp [SessionDaemon.Act.chunk]
    have hnone : r.NoneBetween (.daemon a) ↔ (a.chunk = none ∨ r.phase.between = false) := by
      cases a <;> simp [NoneBetween, SessionDaemon.Act.chunk]
    show (if r.phase.between then r.missed ++ a.chunk.getD [] else r.missed) = [] ↔ _
    rw [hnone]
    cases r.phase.between with
    | true => rw [if_pos rfl, List.append_eq_nil_iff, hch]; simp
    | false => simp
  | readLog n =>
    have hsame : (r.step f (.readLog n)).1.missed = r.missed := by
      simp only [step]
      split
      · split <;> rfl
      · rfl
    rw [hsame]
    exact ⟨fun hm => ⟨hm, trivial⟩, fun hm => hm.1⟩
  | _ => exact ⟨fun hm => ⟨hm, trivial⟩, fun hm => hm.1⟩

/-- Nothing is missed exactly when no chunk is read in between. -/
theorem missed_run {f : RawFd} : ∀ {ms : List Move} {r : Race}, Along (step f) (Allowed f) r ms →
    ((run (step f) r ms).1.missed = [] ↔ r.missed = [] ∧ Along (step f) NoneBetween r ms)
  | [], r, _ => by simp
  | m :: ms, r, h => by
    show (run (step f) (r.step f m).1 ms).1.missed = [] ↔ _
    rw [missed_run h.2, step_missed h.1, Machine.along_cons, and_assoc]

/-- A client whose Attach is handled has got every byte once exactly when nothing is missed. -/
theorem got_perm_iff {f : RawFd} {q : Prop} {r : Race} {out : List LogByte} (hI : r.Inv f q out)
    (ha : r.phase = .attached) : (r.got out).Perm (r.base ++ r.since) ↔ r.missed = [] := by
  have hS := hI.streamed
  simp only [Streamed, ha] at hS
  obtain ⟨copied, live, hperm, heq, -⟩ := hS
  have hlen := hperm.length_eq
  rw [← heq, got]
  simp only [ptyBytes_append]
  constructor
  · intro hgot
    have := hgot.length_eq
    simp only [List.length_append] at this hlen
    exact List.length_eq_zero_iff.1 (by omega)
  · intro hmiss
    rw [hmiss, List.append_nil]
    refine ((hperm.append_right _).append_right _).trans ?_
    simp only [List.append_assoc]
    apply List.Perm.append_left _
    rw [← List.append_assoc, ← List.append_assoc]
    exact List.Perm.append_right _ List.perm_append_comm

theorem joined_of_inv {f : RawFd} {r : Race} {out : List LogByte} (hI : r.Inv f True out) (hmiss : r.missed = []) :
    r.Joined out := by
  have hS := hI.streamed
  unfold Joined got
  cases hp : r.phase with
  | away =>
    simp only [Streamed, hp] at hS
    obtain ⟨rfl, hheld, hflight, -⟩ := hS
    rw [hheld, hflight]
    exact ⟨List.nil_prefix, fun h => by cases h⟩
  | replaying off =>
    simp only [Streamed, hp] at hS
    obtain ⟨hcopied, -, hpty, hflight, -⟩ := hS
    refine ⟨?_, fun h => by cases h⟩
    rw [hcopied, hflight, List.append_nil, ← hpty]
    exact (List.take_prefix off r.file).filterMap _
  | replayed | sent =>
    simp only [Streamed, hp] at hS
    rw [hmiss, List.append_nil] at hS
    rw [hS.1, hS.2, List.append_nil]
    exact ⟨List.prefix_refl _, fun h => by cases h⟩
  | attached =>
    simp only [Streamed, hp] at hS
    obtain ⟨copied, live, -, heq, hlive⟩ := hS
    obtain ⟨hout, hside⟩ := hlive trivial
    have hall : ptyBytes (out ++ r.held) ++ r.inflight = r.base ++ r.since := by
      rw [hmiss, List.append_nil] at heq
      rw [← heq, ptyBytes_append, ptyBytes_append, hout]
      rcases hside with rfl | hheld
      · simp
      · simp [hheld]
    exact ⟨⟨[], by rw [hall, List.append_nil]⟩, fun _ => hall⟩

/-- **The replay of the log joins the live stream, over every run.**  A client whose Attach is handled has got every byte of
the PTY's output once, exactly when no chunk was read between the end of the file and the handling of the Attach; and it
has got them in order, when no live output was displayed while its stdout held back the end of the log.  They are then on its
terminal, once its stdout is flushed, but for those that its socket holds. -/
theorem replay_log_joins_live {f : RawFd} {r : Race} (hr : r.Start f) {ms : List Move}
    (hms : Along (step f) (Allowed f) r ms) :
    ((run (step f) r ms).1.phase = .attached →
      (((run (step f) r ms).1.got (run (step f) r ms).2).Perm
          ((run (step f) r ms).1.base ++ (run (step f) r ms).1.since) ↔ Along (step f) NoneBetween r ms)) ∧
    (Along (step f) NoneBetween r ms → Along (step f) Unheld r ms →
      (run (step f) r ms).1.Joined (run (step f) r ms).2 ∧
      ((run (step f) r ms).1.phase = .attached → ptyBytes (run (step f) r (ms ++ [.flush])).2 ++ (run (step f) r ms).1.inflight =
        (run (step f) r ms).1.base ++ (run (step f) r ms).1.since)) := by
  have hmissed := missed_run hms
  rw [and_iff_right hr.empty.2.2] at hmissed
  refine ⟨fun ha => ?_, fun hnone hun => ?_⟩
  · have hI := inv_run (q := False) hr hms ((Machine.along_iff _ _ _).2 (fun _ _ _ _ h => h.elim))
    rw [got_perm_iff hI ha, hmissed]
  · have hI := inv_run (q := True) hr hms (hun.mono (fun _ _ h _ => h))
    have hjoined := joined_of_inv hI (hmissed.2 hnone)
    refine ⟨hjoined, fun ha => ?_⟩
    rw [Machine.run_append, Machine.run_singleton]
    exact hjoined.2 ha

def logged (file : List LogByte) : Race where
  d := .new 3 ⟨4, 100⟩ (some ⟨file.length, 1048576⟩) "s" "zatch"
  file := file
  phase := .away
  held := []
  inflight := []
  base := []
  since := []
  missed := []

theorem logged_start (file : List LogByte) : (logged file).Start 5 :=
  ⟨⟨[], .new _ "s" "zatch" (by decide)⟩, rfl, ⟨_, rfl, rfl⟩, rfl, rfl, rfl, rfl⟩

/-- The client connects, a chunk is read, and the client copies the log to its end. -/
def copiesLog : List Move :=
  [.connect, .daemon (.accept (.conn 5 true none) 0), .daemon (.output [98, 10] 2 []), .readLog 4096, .readLog 4096]

def thenAttaches : List Move :=
  [.sendAttach, .daemon (.packet 0 (.whole (Packet.encode .attach 1) [])), .daemon (.output [99] 1 SessionDaemon.fiveTakes),
    .display 4096]

theorem fair_output {f : RawFd} {r : Race} {data : List Byte} {took : Nat} {rounds : List SessionDaemon.Round}
    (hdata : data ≠ []) (hacc : SessionDaemon.AcceptsAt f r.d (.output data took rounds)) (htook : data.length ≤ took)
    (hstays : SessionDaemon.Present f (r.d.act (.output data took rounds)).1) : r.Fair f (.output data took rounds) where
  possible := hdata
  connected := fun _ _ _ h => by cases h
  sends := fun _ _ h => by cases h
  accepts := hacc
  logs := htook
  stays := fun _ => hstays

theorem fair_accept {f : RawFd} {r : Race} {cred : Option Nat} {took : Nat}
    (hposs : r.d.Possible (.accept (.conn f true cred) took)) (hph : r.phase ≠ .away) :
    r.Fair f (.accept (.conn f true cred) took) where
  possible := hposs
  connected := fun nb _ _ h => by
    obtain ⟨hconn, -⟩ := SessionDaemon.Act.accept.inj h
    exact ⟨hph, (AcceptRet.conn.inj hconn).2.1.symm⟩
  sends := fun _ _ h => by cases h
  accepts := trivial
  logs := trivial
  stays := fun h => absurd h hposs.1

theorem fair_attach {f : RawFd} {r : Race} {i : Nat} {ws : List WriteRet} (hph : r.phase = .sent)
    (hstays : SessionDaemon.Present f (r.d.act (.packet i (.whole (Packet.encode .attach 1) ws))).1) :
    r.Fair f (.packet i (.whole (Packet.encode .attach 1) ws)) where
  possible := trivial
  connected := fun _ _ _ h => by cases h
  sends := fun j p h c _ _ pkt hr => by
    obtain ⟨rfl, rfl⟩ := SessionDaemon.Act.packet.inj h
    rw [SessionDaemon.PacketAns.whole_res] at hr
    rw [hph]
    exact (Except.ok.inj hr).symm
  accepts := trivial
  logs := trivial
  stays := fun _ => hstays

theorem copiesLog_allowed : Along (step 5) (Allowed 5) (logged [.pty 97, .pty 10]) copiesLog :=
  ⟨rfl, fair_accept (by decide +kernel) (by decide),
    fair_output (by decide) ⟨⟨by simp [SessionDaemon.Interrupted], by decide +kernel⟩, by simp [SessionDaemon.Accepting]⟩
      (by decide) (by decide +kernel),
    Nat.succ_pos _, Nat.succ_pos _, trivial⟩

theorem thenAttaches_allowed :
    Along (step 5) (Allowed 5) (run (step 5) (logged [.pty 97, .pty 10]) copiesLog).1 thenAttaches :=
  ⟨show Race.phase _ = .replayed by decide +kernel, fair_attach rfl (by decide +kernel),
    fair_output (by decide)
      ⟨⟨SessionDaemon.fiveTakes_interrupted, by decide +kernel⟩, SessionDaemon.fiveTakes_accepting (by decide)⟩
      (by decide) (by decide +kernel),
    .inr (by decide +kernel), trivial⟩

theorem logged_joins_live : (run (step 5) (logged [.pty 97, .pty 10]) (copiesLog ++ thenAttaches)).1.Joined
    (run (step 5) (logged [.pty 97, .pty 10]) (copiesLog ++ thenAttaches)).2 :=
  ((replay_log_joins_live (logged_start _) ((Machine.along_append _ _ _ _).2 ⟨copiesLog_allowed, thenAttaches_allowed⟩)).2
    (by decide +kernel) (by decide +kernel)).1

/-- The log read to its end, and a chunk before the Attach. -/
def chunkBefore : List Move := copiesLog ++ [.daemon (.output [120] 1 [])]

theorem chunkBefore_allowed : Along (step 5) (Allowed 5) (logged [.pty 97, .pty 10]) (chunkBefore ++ thenAttaches) := by
  refine (Machine.along_append _ _ _ _).2 ⟨(Machine.along_append _ _ _ _).2 ⟨copiesLog_allowed, ?_, trivial⟩, ?_⟩
  · exact fair_output (by decide)
      ⟨⟨by simp [SessionDaemon.Interrupted], by decide +kernel⟩, by simp [SessionDaemon.Accepting]⟩
      (by decide) (by decide +kernel)
  · exact ⟨show Race.phase _ = .replayed by decide +kernel, fair_attach rfl (by decide +kernel),
      fair_output (by decide)
        ⟨⟨SessionDaemon.fiveTakes_interrupted, by decide +kernel⟩, SessionDaemon.fiveTakes_accepting (by decide)⟩
        (by decide) (by decide +kernel),
      .inr (by decide +kernel), trivial⟩

/-- The chunk read between the end of the file and the handling of the Attach is displayed by neither. -/
theorem replay_log_gap : ¬ ∀ (f : RawFd) (r : Race) (ms : List Move), r.Start f → Along (step f) (Allowed f) r ms →
    (run (step f) r ms).1.phase = .attached →
    (run (step f) r ms).1.got (run (step f) r ms).2 = (run (step f) r ms).1.base ++ (run (step f) r ms).1.since := by
  intro h
  have hgot := h 5 _ _ (logged_start _) chunkBefore_allowed (by decide +kernel)
  revert hgot
  decide +kernel

/-- A log that ends in a prompt: the prompt is held back, and the chunk that came after it is displayed first. -/
example : (run (step 5) (logged [.pty 36, .pty 32])
      ([.connect, .daemon (.accept (.conn 5 true none) 0), .readLog 4096, .readLog 4096] ++ thenAttaches)).2 = [.pty 99] ∧
    (run (step 5) (logged [.pty 36, .pty 32])
      ([.connect, .daemon (.accept (.conn 5 true none) 0), .readLog 4096, .readLog 4096] ++ thenAttaches)).1.held =
        [.pty 36, .pty 32] := by
  decide +kernel

end Race

end Zatch
