import Zatch.SendToClients
/-!
# ClientSteps — what each act does to one client

An act, seen by the one client on a descriptor: what becomes of the client (`Client.next` for a packet of its own,
`Client.drained` for a drain) and what is sent to it.  `visit_spec` says once what handling a packet can do; its
consequences for one descriptor, and those of the other acts, make up `ClientStep`, one case for each thing an act can
be to a client (`act_client`).
-/
namespace Zatch

open Machine (run Along)

/-- What `read_from` returns. -/
def SessionDaemon.PacketAns.res (p : SessionDaemon.PacketAns) : Except ProtocolError Packet :=
  (Packet.readFrom p.inp p.reads).res

def SessionDaemon.PacketAns.Brings (p : SessionDaemon.PacketAns) (t : MsgType) (pkt : Packet) : Prop :=
  p.res = .ok pkt ∧ MsgType.fromU8 pkt.msgType = some t

/-- The answers when a packet has arrived whole. -/
def SessionDaemon.PacketAns.whole (pkt : Packet) (ws : List WriteRet) : SessionDaemon.PacketAns :=
  ⟨pkt.bytes, [.avail packetSize], ws, .room 0, none⟩

theorem SessionDaemon.PacketAns.whole_res (pkt : Packet) (ws : List WriteRet) : (whole pkt ws).res = .ok pkt := by
  have h := Packet.readFrom_whole pkt [] []
  rw [List.append_nil] at h
  exact congrArg Packet.ReadOut.res h

theorem SessionDaemon.PacketAns.whole_brings (t : MsgType) (len : Byte) (ws : List WriteRet) :
    (whole (Packet.encode t len) ws).Brings t (Packet.encode t len) :=
  ⟨whole_res _ _, MsgType.fromU8_toU8 t⟩

def SessionDaemon.PacketAns.forces (p : SessionDaemon.PacketAns) : Bool :=
  match p.res with
  | .ok pkt => decide (MsgType.fromU8 pkt.msgType = some .forceDetach)
  | .error _ => false

namespace Client

def drained (c : Client) (o : DrainOut) : Client :=
  { c with
    replayHead := o.rs.head
    replayRemaining := o.rs.remaining
    attached := if o.ok = true ∧ o.rs.remaining = 0 then true else c.attached }

/-- The drain `handle_attach` makes, of the whole scrollback. -/
def firstDrain (r : Ring) (ws : List WriteRet) : DrainOut := ReplayState.drain r.toScrollback ⟨r.head, r.len⟩ ws

/-- An Attach packet that is answered without a replay. -/
def atOnce (r : Ring) (pkt : Packet) : Bool := decide (pkt.len ≠ 0 ∨ r.len = 0)

/-- The client after its turn in `handle_client_packets`: `none` when it is closed and removed. -/
def next (r : Ring) (p : SessionDaemon.PacketAns) (c : Client) : Option Client :=
  match p.res with
  | .ok pkt =>
    match MsgType.fromU8 pkt.msgType with
    | some .attach => some (if atOnce r pkt then { c with attached := true } else c.drained (firstDrain r p.writes))
    | some .detach => some { c with attached := false }
    | some .forceDetach => none
    | some .info => none
    | _ => some c
  | .error .wouldBlock => some c
  | .error _ => none

def replayOn (r : Ring) (p : SessionDaemon.PacketAns) : List Byte :=
  match p.res with
  | .ok pkt =>
    if MsgType.fromU8 pkt.msgType = some .attach ∧ atOnce r pkt = false then (firstDrain r p.writes).sent else []
  | .error _ => []

@[simp] theorem drained_replayHead (c : Client) (o : DrainOut) : (c.drained o).replayHead = o.rs.head := rfl
@[simp] theorem drained_replayRemaining (c : Client) (o : DrainOut) : (c.drained o).replayRemaining = o.rs.remaining := rfl

/-- A drain with nothing left attaches its client. -/
theorem drained_attached (c : Client) {r : Ring} {ws : List WriteRet} {rs : ReplayState} (h : rs.head < scrollbackSize)
    (hzero : (ReplayState.drain r.toScrollback rs ws).rs.remaining = 0) :
    (c.drained (ReplayState.drain r.toScrollback rs ws)).attached = true := by
  simp only [drained, ReplayState.drain_ok r ws rs h hzero, hzero, and_self, if_true]

theorem next_fd {r : Ring} {p : SessionDaemon.PacketAns} {c c' : Client} (h : c.next r p = some c') : c'.fd = c.fd := by
  unfold next at h
  split at h
  · split at h
    · obtain rfl := Option.some.inj h
      split <;> rfl
    · obtain rfl := Option.some.inj h; rfl
    · cases h
    · cases h
    · obtain rfl := Option.some.inj h; rfl
  · obtain rfl := Option.some.inj h; rfl
  · cases h

theorem next_of_error {r : Ring} {p : SessionDaemon.PacketAns} {c c' : Client} {e : ProtocolError} (he : p.res = .error e)
    (h : c.next r p = some c') : c' = c := by
  unfold next at h
  rw [he] at h
  cases e with
  | wouldBlock => exact (Option.some.inj h).symm
  | eof => cases h
  | io n => cases h

theorem replayOn_of_error {r : Ring} {p : SessionDaemon.PacketAns} {e : ProtocolError} (he : p.res = .error e) :
    replayOn r p = [] := by
  unfold replayOn
  rw [he]

theorem replayOn_of_not_attach {r : Ring} {p : SessionDaemon.PacketAns} (h : ∀ pkt, ¬ p.Brings .attach pkt) :
    replayOn r p = [] := by
  unfold replayOn
  split
  · rename_i pkt hpkt
    exact if_neg (fun hc => h pkt ⟨hpkt, hc.1⟩)
  · rfl

theorem next_of_not_attach {r : Ring} {p : SessionDaemon.PacketAns} {c c' : Client} (h : ∀ pkt, ¬ p.Brings .attach pkt)
    (hn : c.next r p = some c') : c' = c ∨ (c' = { c with attached := false } ∧ ∃ pkt, p.Brings .detach pkt) := by
  unfold next at hn
  split at hn
  · rename_i pkt hpkt
    split at hn
    · rename_i ht
      exact absurd ⟨hpkt, ht⟩ (h pkt)
    · rename_i ht
      exact .inr ⟨(Option.some.inj hn).symm, pkt, hpkt, ht⟩
    · cases hn
    · cases hn
    · exact .inl (Option.some.inj hn).symm
  · exact .inl (Option.some.inj hn).symm
  · cases hn

theorem next_attach {r : Ring} {p : SessionDaemon.PacketAns} {pkt : Packet} (h : p.Brings .attach pkt) (c : Client) :
    c.next r p = some (if atOnce r pkt then { c with attached := true } else c.drained (firstDrain r p.writes)) := by
  simp only [next, h.1, h.2]

theorem replayOn_attach {r : Ring} {p : SessionDaemon.PacketAns} {pkt : Packet} (h : p.Brings .attach pkt) :
    replayOn r p = if atOnce r pkt then [] else (firstDrain r p.writes).sent := by
  simp only [replayOn, h.1, h.2, true_and]
  cases atOnce r pkt <;> rfl

theorem next_detach {r : Ring} {p : SessionDaemon.PacketAns} {pkt : Packet} (h : p.Brings .detach pkt) (c : Client) :
    c.next r p = some { c with attached := false } := by
  simp only [next, h.1, h.2]

/-- **What a packet does to the cursor**: an Attach may start the replay of the ring, and nothing else moves it. -/
theorem next_cursor {r : Ring} {p : SessionDaemon.PacketAns} {c c' : Client} (hn : c.next r p = some c') :
    (c'.replayHead = c.replayHead ∧ c'.replayRemaining = c.replayRemaining) ∨
    (c'.replayHead = (firstDrain r p.writes).rs.head ∧ c'.replayRemaining = (firstDrain r p.writes).rs.remaining) := by
  by_cases h : ∃ pkt, p.Brings .attach pkt
  · obtain ⟨pkt, h⟩ := h
    rw [next_attach h] at hn
    obtain rfl := Option.some.inj hn
    split
    · exact .inl ⟨rfl, rfl⟩
    · exact .inr ⟨rfl, rfl⟩
  · rcases next_of_not_attach (fun pkt hp => h ⟨pkt, hp⟩) hn with rfl | ⟨rfl, -⟩
    · exact .inl ⟨rfl, rfl⟩
    · exact .inl ⟨rfl, rfl⟩

end Client

/-- An effect that neither opens a connection nor reads a packet nor sends a client any of the PTY's output. -/
def Effect.silent : Effect → Bool
  | .accepted _ => false
  | .read _ _ => false
  | .replayed _ _ => false
  | .live _ _ => false
  | _ => true

/-- What the handling of a packet does, besides the replay to the client: to the PTY, or an answer to an `Info`. -/
def Effect.plain : Effect → Bool
  | .ptyWrote _ => true
  | .ptyWinsize _ => true
  | .ptyKill _ => true
  | .told _ _ => true
  | _ => false

theorem silent_of_plain {fx : List Effect} (h : ∀ e ∈ fx, e.plain = true) : ∀ e ∈ fx, e.silent = true := by
  intro e he
  have := h e he
  cases e <;> first | rfl | cases this

def Effect.readOf : Effect → Option (RawFd × Except ProtocolError Packet)
  | .read f res => some (f, res)
  | _ => none

def readsOf (fx : List Effect) : List (RawFd × Except ProtocolError Packet) := fx.filterMap Effect.readOf

@[simp] theorem readsOf_nil : readsOf [] = [] := rfl

@[simp] theorem readsOf_append (fx fy : List Effect) : readsOf (fx ++ fy) = readsOf fx ++ readsOf fy :=
  List.filterMap_append

section
variable {fx : List Effect} (h : ∀ e ∈ fx, e.silent = true)

include h

theorem replayedTo_of_silent (f : RawFd) : replayedTo f fx = [] :=
  List.flatMap_eq_nil_iff.2 (fun e he => by
    have := h e he
    cases e <;> first | rfl | cases this)

theorem liveTo_of_silent (f : RawFd) : liveTo f fx = [] :=
  List.flatMap_eq_nil_iff.2 (fun e he => by
    have := h e he
    cases e <;> first | rfl | cases this)

theorem readsOf_of_silent : readsOf fx = [] :=
  List.filterMap_eq_nil_iff.2 (fun e he => by
    have := h e he
    cases e <;> first | rfl | cases this)

end

namespace SessionDaemon

/-! ## One packet -/

theorem plain_ptyWrite (bs : List Byte) (w : WriteRet) : ∀ e ∈ ptyWrite bs w, e.plain = true := by
  unfold ptyWrite
  split <;> simp [Effect.plain]

theorem plain_tell (fd : RawFd) : ∀ (ts : List (List Byte)) (ws : List WriteRet), ∀ e ∈ tell fd ts ws, e.plain = true
  | [], _, _, he => by cases he
  | t :: ts, ws, e, he => by
    rcases List.mem_cons.1 he with rfl | he
    · rfl
    · exact plain_tell fd ts _ e he

theorem handlePush_plain (d : SessionDaemon) (pkt : Packet) (w : WriteRet) :
    ∃ fx, d.handlePush pkt w = ⟨d, fx, true⟩ ∧ ∀ e ∈ fx, e.plain = true := by
  unfold handlePush
  simp only
  split
  · exact ⟨_, rfl, plain_ptyWrite _ _⟩
  · exact ⟨[], rfl, by simp⟩

theorem handleRedraw_plain (d : SessionDaemon) (pkt : Packet) (term : Option Termios) (w : WriteRet) :
    ∃ fx, d.handleRedraw pkt term w = ⟨d, fx, true⟩ ∧ ∀ e ∈ fx, e.plain = true := by
  have hsize : (Effect.ptyWinsize (winsizeFromBytes pkt.data)).plain = true := rfl
  unfold handleRedraw
  simp only
  split
  · split
    · exact ⟨_, rfl, List.forall_mem_cons.2 ⟨hsize, plain_ptyWrite _ _⟩⟩
    · exact ⟨_, rfl, by simp [hsize]⟩
  · split <;> exact ⟨_, rfl, by simp [Effect.plain]⟩

/-- **What handling a packet can do**: change the client it came from, send it a replay, and raise the eviction flag;
the packets that end their connection change no client. -/
theorem dispatch_spec (d : SessionDaemon) {i : Nat} {c : Client} {pkt : Packet} {p : PacketAns}
    (hi : d.clients[i]? = some c) (hres : p.res = .ok pkt) :
    ((d.dispatch i c.fd pkt p).d = { d with
        clients := d.clients.set i ((c.next d.scrollback p).getD c)
        evictAttached := d.evictAttached || decide (MsgType.fromU8 pkt.msgType = some .forceDetach) }) ∧
    (d.dispatch i c.fd pkt p).keep = (c.next d.scrollback p).isSome ∧
    ((∀ e ∈ (d.dispatch i c.fd pkt p).fx, e.plain = true) ∧ Client.replayOn d.scrollback p = [] ∨
      (d.dispatch i c.fd pkt p).fx = [.replayed c.fd (Client.replayOn d.scrollback p)]) := by
  have hstay : d.clients.set i c = d.clients := by
    obtain ⟨hlt, hx⟩ := List.getElem?_eq_some_iff.1 hi
    rw [← hx, List.set_getElem_self]
  have hsame : d = { d with clients := d.clients.set i c, evictAttached := d.evictAttached || false } := by
    rw [hstay, Bool.or_false]
  simp only [dispatch, Client.next, Client.replayOn, hres]
  cases MsgType.fromU8 pkt.msgType with
  | none => exact ⟨hsame, rfl, .inl ⟨by simp, rfl⟩⟩
  | some t =>
    cases t with
    | push =>
      obtain ⟨fx, hfx, hs⟩ := handlePush_plain d pkt p.pty
      rw [hfx]
      exact ⟨hsame, rfl, .inl ⟨hs, rfl⟩⟩
    | attach =>
      simp only [handleAttach, Client.atOnce, decide_eq_true_eq, decide_eq_false_iff_not]
      by_cases h : pkt.len ≠ 0 ∨ d.scrollback.len = 0
      · rw [if_pos h, if_pos h, if_neg (fun hn => hn.2 h), modify_eq_set _ hi]
        exact ⟨by rw [decide_eq_false (by simp), Bool.or_false]; rfl, rfl, .inl ⟨by simp, rfl⟩⟩
      · rw [if_neg h, if_neg h, if_pos ⟨trivial, h⟩, modify_eq_set _ hi]
        exact ⟨by rw [decide_eq_false (by simp), Bool.or_false]; rfl, rfl, .inr rfl⟩
    | detach =>
      simp only [handleDetach]
      rw [modify_eq_set _ hi]
      exact ⟨by rw [decide_eq_false (by simp), Bool.or_false]; rfl, rfl, .inl ⟨by simp, rfl⟩⟩
    | winch => exact ⟨hsame, rfl, .inl ⟨by simp [handleWinch, Effect.plain], rfl⟩⟩
    | redraw =>
      obtain ⟨fx, hfx, hs⟩ := handleRedraw_plain d pkt p.term p.pty
      rw [hfx]
      exact ⟨hsame, rfl, .inl ⟨hs, rfl⟩⟩
    | kill => exact ⟨hsame, rfl, .inl ⟨by simp [handleKill, Effect.plain], rfl⟩⟩
    | forceDetach =>
      refine ⟨?_, rfl, .inl ⟨by simp [handleForceDetach], rfl⟩⟩
      simp only [handleForceDetach, decide_true, Bool.or_true, Option.getD_none, hstay]
    | info => exact ⟨hsame, rfl, .inl ⟨plain_tell _ _ _, rfl⟩⟩

/-- **One client's turn in `handle_client_packets`**: its packet is read once, the client is changed in its place or closed
and removed, and what is sent is a replay to this client. -/
theorem visit_spec (d : SessionDaemon) {i : Nat} {c : Client} (p : PacketAns) (hi : d.clients[i]? = some c) :
    ∃ fx, ((∀ e ∈ fx, e.plain = true) ∧ Client.replayOn d.scrollback p = [] ∨
        fx = [.replayed c.fd (Client.replayOn d.scrollback p)]) ∧
      d.visit i c.fd p = match c.next d.scrollback p with
        | some c' => ⟨{ d with clients := d.clients.set i c', evictAttached := d.evictAttached || p.forces },
            .read c.fd p.res :: fx, true⟩
        | none => ⟨{ d with clients := swapRemove d.clients i, evictAttached := d.evictAttached || p.forces },
            .read c.fd p.res :: fx ++ [.closed c.fd], false⟩ := by
  have hstay : d.clients.set i c = d.clients := by
    obtain ⟨hlt, hx⟩ := List.getElem?_eq_some_iff.1 hi
    rw [← hx, List.set_getElem_self]
  have hres : (Packet.readFrom p.inp p.reads).res = p.res := rfl
  unfold visit
  simp only [hres]
  cases hr : p.res with
  | error e =>
    have hno : p.forces = false := by simp only [PacketAns.forces, hr]
    refine ⟨[], .inl ⟨by simp, Client.replayOn_of_error hr⟩, ?_⟩
    rw [hno, Bool.or_false]
    cases e with
    | wouldBlock =>
      have hn : c.next d.scrollback p = some c := by simp only [Client.next, hr]
      simp only [hn, hstay]
    | eof =>
      have hn : c.next d.scrollback p = none := by simp only [Client.next, hr]
      simp only [hn, drop, List.cons_append, List.nil_append]
    | io n =>
      have hn : c.next d.scrollback p = none := by simp only [Client.next, hr]
      simp only [hn, drop, List.cons_append, List.nil_append]
  | ok pkt =>
    obtain ⟨hd, hk, hfx⟩ := dispatch_spec d hi hr
    have hforce : p.forces = decide (MsgType.fromU8 pkt.msgType = some .forceDetach) := by
      simp only [PacketAns.forces, hr]
    refine ⟨(d.dispatch i c.fd pkt p).fx, hfx, ?_⟩
    rw [hforce]
    cases hn : c.next d.scrollback p with
    | some c' =>
      rw [hn] at hd hk
      simp only [hd, hk, Option.isSome_some, if_true, Option.getD_some]
    | none =>
      rw [hn] at hd hk
      simp only [hd, hk, Option.isSome_none, Bool.false_eq_true, if_false, drop, Option.getD_none, hstay]

theorem act_packet (d : SessionDaemon) {i : Nat} {c : Client} (p : PacketAns) (hi : d.clients[i]? = some c) :
    d.act (.packet i p) = ((d.visit i c.fd p).d, (d.visit i c.fd p).fx) := by
  simp only [act, hi]

theorem act_packet_none (d : SessionDaemon) {i : Nat} (p : PacketAns) (hi : d.clients[i]? = none) :
    d.act (.packet i p) = (d, []) := by
  simp only [act, hi]

section packet
variable (d : SessionDaemon) {i : Nat} {c : Client} (p : PacketAns) (hi : d.clients[i]? = some c)

include hi

theorem packet_clients : (d.act (.packet i p)).1.clients =
    match c.next d.scrollback p with
    | some c' => d.clients.set i c'
    | none => swapRemove d.clients i := by
  obtain ⟨fx, -, hv⟩ := visit_spec d p hi
  rw [act_packet d p hi, hv]
  cases c.next d.scrollback p <;> rfl

theorem packet_evictAttached : (d.act (.packet i p)).1.evictAttached = (d.evictAttached || p.forces) := by
  obtain ⟨fx, -, hv⟩ := visit_spec d p hi
  rw [act_packet d p hi, hv]
  cases c.next d.scrollback p <;> rfl

theorem packet_reads : readsOf (d.act (.packet i p)).2 = [(c.fd, p.res)] := by
  obtain ⟨fx, hfx, hv⟩ := visit_spec d p hi
  have hno : readsOf fx = [] := by
    rcases hfx with ⟨hs, -⟩ | rfl
    · exact readsOf_of_silent (silent_of_plain hs)
    · rfl
  rw [act_packet d p hi, hv]
  cases c.next d.scrollback p with
  | some c' => exact congrArg ((c.fd, p.res) :: ·) hno
  | none =>
    show (c.fd, p.res) :: readsOf (fx ++ [.closed c.fd]) = _
    rw [readsOf_append, hno]
    rfl

theorem packet_live (f : RawFd) : liveTo f (d.act (.packet i p)).2 = [] := by
  obtain ⟨fx, hfx, hv⟩ := visit_spec d p hi
  have hno : liveTo f fx = [] := by
    rcases hfx with ⟨hs, -⟩ | rfl
    · exact liveTo_of_silent (silent_of_plain hs) f
    · rfl
  rw [act_packet d p hi, hv]
  cases c.next d.scrollback p with
  | some c' => exact hno
  | none => simp [Effect.liveOf, hno]

theorem packet_replayed (f : RawFd) : replayedTo f (d.act (.packet i p)).2 =
    if c.fd = f then Client.replayOn d.scrollback p else [] := by
  obtain ⟨fx, hfx, hv⟩ := visit_spec d p hi
  have hno : replayedTo f fx = if c.fd = f then Client.replayOn d.scrollback p else [] := by
    rcases hfx with ⟨hs, hnil⟩ | rfl
    · rw [replayedTo_of_silent (silent_of_plain hs), hnil, ite_self]
    · simp [Effect.replayOf]
  rw [act_packet d p hi, hv]
  cases c.next d.scrollback p with
  | some c' => exact hno
  | none => simp [Effect.replayOf, hno]

theorem mem_packet {e : Effect} (he : e ∈ (d.act (.packet i p)).2) : e.plain = true ∨ e = .read c.fd p.res ∨
    e = .replayed c.fd (Client.replayOn d.scrollback p) ∨ e = .closed c.fd := by
  obtain ⟨fx, hfx, hv⟩ := visit_spec d p hi
  have hmem : e ∈ .read c.fd p.res :: fx ++ [.closed c.fd] := by
    rw [act_packet d p hi, hv] at he
    cases hn : c.next d.scrollback p with
    | some c' =>
      rw [hn] at he
      exact List.mem_append_left _ he
    | none =>
      rw [hn] at he
      exact he
  rcases List.mem_append.1 hmem with hmem | hmem
  · rcases List.mem_cons.1 hmem with rfl | hmem
    · exact .inr (.inl rfl)
    · rcases hfx with ⟨hplain, -⟩ | rfl
      · exact .inl (hplain e hmem)
      · exact .inr (.inr (.inl (List.mem_singleton.1 hmem)))
  · exact .inr (.inr (.inr (List.mem_singleton.1 hmem)))

theorem packet_closed (hn : c.next d.scrollback p = none) : Effect.closed c.fd ∈ (d.act (.packet i p)).2 := by
  obtain ⟨fx, -, hv⟩ := visit_spec d p hi
  rw [act_packet d p hi, hv, hn]
  exact List.mem_append_right _ List.mem_cons_self

end packet

theorem act_scrollback (d : SessionDaemon) (a : Act) : (d.act a).1.scrollback =
    match a with
    | .output data _ _ => d.scrollback.append data
    | _ => d.scrollback := by
  cases a with
  | poll => rfl
  | accept r took =>
    rcases r with ⟨fd, nb, cred⟩ | e
    · cases nb with
      | true => rfl
      | false => simp only [act, acceptClient, logWarn, logData]; split <;> rfl
    · rfl
  | packet i p =>
    cases hi : d.clients[i]? with
    | none => rw [act_packet_none d p hi]
    | some c =>
      obtain ⟨fx, -, hv⟩ := visit_spec d p hi
      rw [act_packet d p hi, hv]
      cases c.next d.scrollback p <;> rfl
  | evict => simp only [act, evict]; split <;> rfl
  | drain wfds ans => rfl
  | output data took rounds => simp only [act, forward, logData]; split <;> rfl

theorem acceptClient_clients (d : SessionDaemon) (r : AcceptRet) (took : Nat) : (d.acceptClient r took).1.clients =
    match r with
    | .conn fd true cred => d.clients ++ [⟨fd, false, 0, 0, cred.getD 0⟩]
    | _ => d.clients := by
  rcases r with ⟨fd, nb, cred⟩ | e
  · cases nb with
    | true => rfl
    | false => simp only [acceptClient, logWarn, logData]; split <;> rfl
  · rfl

theorem silent_logData (d : SessionDaemon) (data : List Byte) (took : Nat) :
    ∀ e ∈ (d.logData data took).2, e.silent = true := by
  unfold logData
  split <;> simp [SessionLog.write, Effect.silent]

theorem logData_keeps (d : SessionDaemon) (data : List Byte) (took : Nat) :
    (d.logData data took).1.clients = d.clients ∧ (d.logData data took).1.listenerFd = d.listenerFd := by
  unfold logData
  split <;> exact ⟨rfl, rfl⟩

theorem silent_logWarn (d : SessionDaemon) (msg : String) (took : Nat) : ∀ e ∈ (d.logWarn msg took).2, e.silent = true :=
  List.forall_mem_cons.2 ⟨rfl, silent_logData d _ took⟩

theorem acceptClient_fx (d : SessionDaemon) (r : AcceptRet) (took : Nat) : (d.acceptClient r took).2 = [] ∨
    ∃ fd nb cred fx, r = .conn fd nb cred ∧ (d.acceptClient r took).2 = .accepted fd :: fx ∧
      ∀ e ∈ fx, e.silent = true := by
  rcases r with ⟨fd, nb, cred⟩ | e
  · refine .inr ⟨fd, nb, cred, ?_⟩
    cases nb with
    | true => exact ⟨[], rfl, rfl, by simp⟩
    | false =>
      refine ⟨(d.logWarn "could not set client socket non-blocking; connection rejected" took).2 ++ [.closed fd],
        rfl, rfl, ?_⟩
      exact List.forall_mem_append.2 ⟨silent_logWarn d _ took, by simp [Effect.silent]⟩
  · exact .inl rfl

theorem acceptClient_sends_nothing (d : SessionDaemon) (r : AcceptRet) (took : Nat) (f : RawFd) :
    replayedTo f (d.acceptClient r took).2 = [] ∧ liveTo f (d.acceptClient r took).2 = [] := by
  rcases acceptClient_fx d r took with h | ⟨fd, nb, cred, fx, -, h, hs⟩
  · rw [h]
    exact ⟨rfl, rfl⟩
  · rw [h, replayedTo_cons, liveTo_cons, replayedTo_of_silent hs, liveTo_of_silent hs]
    exact ⟨rfl, rfl⟩

theorem silent_evict (d : SessionDaemon) : ∀ e ∈ d.evict.2, e.silent = true := by
  unfold evict
  split
  · intro e he
    obtain ⟨c, -, rfl⟩ := List.mem_map.1 he
    rfl
  · simp

/-! ## A chunk of output -/

theorem forward_sent (d : SessionDaemon) (data : List Byte) (took : Nat) (rounds : List Round) :
    (d.forward data took rounds).1.clients = (d.sendToClients data rounds).clients ∧
    ∃ lg, (∀ e ∈ lg, e.silent = true) ∧ (d.forward data took rounds).2 = lg ++ (d.sendToClients data rounds).fx := by
  obtain ⟨h1, h2⟩ := logData_keeps { d with scrollback := d.scrollback.append data } data took
  refine ⟨?_, _, silent_logData { d with scrollback := d.scrollback.append data } data took, ?_⟩ <;>
    simp only [forward, sendToClients, h1, h2]

/-! ## No two clients on one descriptor -/

theorem fds_packet (d : SessionDaemon) (i : Nat) (p : PacketAns) :
    ∃ fds, fds.Sublist (d.clients.map (·.fd)) ∧ ((d.act (.packet i p)).1.clients.map (·.fd)).Perm fds := by
  cases hi : d.clients[i]? with
  | none => exact ⟨_, List.Sublist.refl _, by rw [act_packet_none d p hi]⟩
  | some c =>
    rw [packet_clients d p hi]
    obtain ⟨pre, post, hcs, rfl⟩ := split_of_getElem? hi
    cases hn : c.next d.scrollback p with
    | some c' =>
      refine ⟨_, List.Sublist.refl _, ?_⟩
      simp only
      rw [hcs, List.set_append_right _ _ (Nat.le_refl _), Nat.sub_self, List.set_cons_zero]
      simp only [List.map_append, List.map_cons, Client.next_fd hn, List.Perm.refl]
    | none =>
      refine ⟨(pre ++ post).map (·.fd), ?_, ?_⟩
      · rw [hcs]
        exact ((List.sublist_cons_self c post).append_left pre).map _
      · simp only
        rw [hcs]
        exact (swapRemove_perm pre post c).map _

theorem act_nodup {d : SessionDaemon} (hn : (d.clients.map (·.fd)).Nodup) {a : Act} (ha : d.Possible a) :
    ((d.act a).1.clients.map (·.fd)).Nodup := by
  cases a with
  | poll => exact hn
  | accept r took =>
    show ((d.acceptClient r took).1.clients.map (·.fd)).Nodup
    rw [acceptClient_clients]
    split
    · rw [List.map_append, List.map_singleton]
      refine List.nodup_append.2 ⟨hn, by simp, fun x hx y hy hxy => ?_⟩
      rw [List.mem_singleton] at hy
      subst hxy hy
      exact ha.1 hx
    · exact hn
  | packet i p =>
    obtain ⟨fds, hsub, hperm⟩ := fds_packet d i p
    exact hperm.nodup_iff.2 (hn.sublist hsub)
  | evict =>
    simp only [act, evict]
    split
    · exact hn.sublist (List.filter_sublist.map _)
    · exact hn
  | drain wfds ans =>
    have hfd : ∀ c : Client, (drainClient d.scrollback.toScrollback wfds ans c).1.fd = c.fd := fun c => by
      unfold drainClient
      split <;> rfl
    simp only [act, drainReplay, List.map_map, Function.comp_def, hfd]
    exact hn
  | output data took rounds =>
    show ((d.forward data took rounds).1.clients.map (·.fd)).Nodup
    rw [(forward_sent d data took rounds).1]
    unfold sendToClients
    split
    · exact hn
    · exact hn.sublist ((sendLoop_sublist _ _ _ _).map _)

/-- **In a reachable state no two clients have one descriptor.** -/
theorem Reachable.nodup {d : SessionDaemon} {fx : List Effect} (hd : Reachable d fx) : (d.clients.map (·.fd)).Nodup := by
  induction hd with
  | new log s g h => exact List.nodup_nil
  | step a hd ha ih => exact act_nodup ih ha

/-! ## The client on one descriptor -/

theorem clientsAt_append (xs ys : List Client) (f : RawFd) : clientsAt (xs ++ ys) f = clientsAt xs f ++ clientsAt ys f :=
  List.filter_append _ _

theorem clientsAt_cons (x : Client) (xs : List Client) (f : RawFd) :
    clientsAt (x :: xs) f = if x.fd = f then x :: clientsAt xs f else clientsAt xs f := by
  by_cases h : x.fd = f <;> simp [clientsAt, h]

theorem clientsAt_cases {cs : List Client} (hn : (cs.map (·.fd)).Nodup) (f : RawFd) :
    clientsAt cs f = [] ∨ ∃ c, clientsAt cs f = [c] := by
  by_cases h : ∃ c ∈ cs, c.fd = f
  · obtain ⟨c, hc, rfl⟩ := h
    exact .inr ⟨c, clientsAt_of_nodup hn hc⟩
  · refine .inl (List.filter_eq_nil_iff.2 (fun c hc hcf => h ⟨c, hc, by simpa using hcf⟩))

theorem nodup_clientsAt {cs : List Client} {i : Nat} {c : Client} (hn : (cs.map (·.fd)).Nodup) (hi : cs[i]? = some c) :
    clientsAt cs c.fd = [c] :=
  clientsAt_of_nodup hn (List.mem_of_getElem? hi)

section packet
variable {d : SessionDaemon} {i : Nat} {c : Client} (p : PacketAns) (hi : d.clients[i]? = some c)

include hi

theorem packet_clientsAt_self (h : clientsAt d.clients c.fd = [c]) :
    clientsAt (d.act (.packet i p)).1.clients c.fd = (c.next d.scrollback p).toList := by
  rw [packet_clients d p hi]
  obtain ⟨pre, post, hcs, rfl⟩ := split_of_getElem? hi
  rw [hcs, clientsAt_append, clientsAt_cons, if_pos rfl] at h
  have hlen := congrArg List.length h
  rw [List.length_append, List.length_cons, List.length_singleton] at hlen
  have hpre : clientsAt pre c.fd = [] := List.length_eq_zero_iff.1 (by omega)
  have hpost : clientsAt post c.fd = [] := List.length_eq_zero_iff.1 (by omega)
  cases hn : c.next d.scrollback p with
  | some c' =>
    simp only
    rw [hcs, List.set_append_right _ _ (Nat.le_refl _), Nat.sub_self, List.set_cons_zero, clientsAt_append,
      clientsAt_cons, if_pos (Client.next_fd hn), hpre, hpost]
    rfl
  | none =>
    have hperm := (swapRemove_perm pre post c).filter (fun x => decide (x.fd = c.fd))
    simp only
    rw [hcs]
    refine List.Perm.eq_nil (hperm.trans ?_)
    show (clientsAt (pre ++ post) c.fd).Perm []
    rw [clientsAt_append, hpre, hpost]
    exact List.Perm.refl _

theorem packet_clientsAt_other {f : RawFd} (hf : c.fd ≠ f) :
    (clientsAt (d.act (.packet i p)).1.clients f).Perm (clientsAt d.clients f) := by
  rw [packet_clients d p hi]
  obtain ⟨pre, post, hcs, rfl⟩ := split_of_getElem? hi
  have hold : clientsAt d.clients f = clientsAt (pre ++ post) f := by
    rw [hcs, clientsAt_append, clientsAt_append, clientsAt_cons, if_neg hf]
  rw [hold]
  cases hn : c.next d.scrollback p with
  | some c' =>
    simp only
    rw [hcs, List.set_append_right _ _ (Nat.le_refl _), Nat.sub_self, List.set_cons_zero, clientsAt_append,
      clientsAt_cons, if_neg (by rw [Client.next_fd hn]; exact hf), clientsAt_append]
  | none =>
    simp only
    rw [hcs]
    exact (swapRemove_perm pre post c).filter _

end packet

theorem accept_clientsAt {d : SessionDaemon} {r : AcceptRet} {took : Nat} (ha : d.Possible (.accept r took)) {f : RawFd}
    {c : Client} (h : clientsAt d.clients f = [c]) : clientsAt (d.act (.accept r took)).1.clients f = [c] := by
  show clientsAt (d.acceptClient r took).1.clients f = [c]
  rw [acceptClient_clients]
  split
  · rename_i fd cred
    have hne : fd ≠ f := fun hf => ha.1 (by rw [hf]; exact List.mem_map.2 ⟨c, fd_of_clientsAt h⟩)
    rw [clientsAt_append, clientsAt_cons, if_neg hne, h]
    rfl
  · exact h

theorem evict_clientsAt {d : SessionDaemon} {f : RawFd} {c : Client} (h : clientsAt d.clients f = [c]) :
    clientsAt (d.act .evict).1.clients f = if d.evictAttached = true ∧ c.attached = true then [] else [c] := by
  simp only [act, evict]
  cases d.evictAttached with
  | false => simpa using h
  | true =>
    simp only [if_true, true_and]
    have hswap : clientsAt (d.clients.filter (fun c => !c.attached)) f =
        (clientsAt d.clients f).filter (fun c => !c.attached) := by
      simp only [clientsAt, List.filter_filter, Bool.and_comm]
    rw [hswap, h]
    cases hc : c.attached <;> simp [hc]

theorem drainClient_fd (sb : Scrollback) (wfds : FdSet) (ans : RawFd → List WriteRet) (c : Client) :
    (drainClient sb wfds ans c).1.fd = c.fd := by
  unfold drainClient
  split <;> rfl

theorem drain_clientsAt {d : SessionDaemon} (wfds : FdSet) (ans : RawFd → List WriteRet) (f : RawFd) :
    clientsAt (d.act (.drain wfds ans)).1.clients f =
      (clientsAt d.clients f).map (fun c => (drainClient d.scrollback.toScrollback wfds ans c).1) := by
  simp only [act, drainReplay, clientsAt, List.filter_map, Function.comp_def, drainClient_fd]

/-- A drain does nothing but send pieces of replays. -/
theorem mem_drain {d : SessionDaemon} {wfds : FdSet} {ans : RawFd → List WriteRet} {e : Effect}
    (he : e ∈ (d.act (.drain wfds ans)).2) : ∃ fd sent, e = .replayed fd sent := by
  obtain ⟨c, -, hc⟩ := List.mem_flatMap.1 he
  unfold drainClient at hc
  split at hc
  · exact ⟨_, _, List.mem_singleton.1 hc⟩
  · cases hc

theorem drain_live (d : SessionDaemon) (wfds : FdSet) (ans : RawFd → List WriteRet) (f : RawFd) :
    liveTo f (d.act (.drain wfds ans)).2 = [] := by
  refine List.flatMap_eq_nil_iff.2 (fun e he => ?_)
  obtain ⟨fd, sent, rfl⟩ := mem_drain he
  rfl

theorem drain_replayed (d : SessionDaemon) (wfds : FdSet) (ans : RawFd → List WriteRet) (f : RawFd) :
    replayedTo f (d.act (.drain wfds ans)).2 =
      (clientsAt d.clients f).flatMap (fun c => replayedTo f (drainClient d.scrollback.toScrollback wfds ans c).2) :=
  flatMap_clientsAt (Effect.replayOf f) f _ (fun c hc => by
    unfold drainClient
    split
    · simp [Effect.replayOf, hc]
    · rfl) d.clients

section output
variable {d : SessionDaemon} {data : List Byte} (took : Nat) (rounds : List Round) {f : RawFd}

theorem output_live : liveTo f (d.act (.output data took rounds)).2 = liveTo f (d.sendToClients data rounds).fx := by
  obtain ⟨-, lg, hs, hfx⟩ := forward_sent d data took rounds
  show liveTo f (d.forward data took rounds).2 = _
  rw [hfx, liveTo_append, liveTo_of_silent hs, List.nil_append]

theorem output_replayed : replayedTo f (d.act (.output data took rounds)).2 = [] := by
  obtain ⟨-, lg, hs, hfx⟩ := forward_sent d data took rounds
  show replayedTo f (d.forward data took rounds).2 = _
  rw [hfx, replayedTo_append, replayedTo_of_silent hs, List.nil_append]
  unfold sendToClients
  split
  · rfl
  · exact replayedTo_sendLoop _ _ _ _ _

theorem output_clients : (d.act (.output data took rounds)).1.clients = (d.sendToClients data rounds).clients :=
  (forward_sent d data took rounds).1

theorem output_absent (h : clientsAt d.clients f = []) :
    clientsAt (d.act (.output data took rounds)).1.clients f = [] ∧ liveTo f (d.act (.output data took rounds)).2 = [] := by
  rw [output_clients, output_live]
  unfold sendToClients
  split
  · exact ⟨h, rfl⟩
  · exact sendLoop_absent _ _ _ _ _ h

theorem output_client (hd : data ≠ []) {c : Client} (h : clientsAt d.clients f = [c]) :
    (clientsAt (d.act (.output data took rounds)).1.clients f = [c] ∧
      (liveTo f (d.act (.output data took rounds)).2 = [] ∨
        c.attached = true ∧ liveTo f (d.act (.output data took rounds)).2 = data)) ∨
    (clientsAt (d.act (.output data took rounds)).1.clients f = [] ∧ c.attached = true ∧
      ∃ n, n < data.length ∧ liveTo f (d.act (.output data took rounds)).2 = data.take n) := by
  rw [output_clients, output_live]
  unfold sendToClients
  split
  · exact .inl ⟨h, .inl rfl⟩
  · rcases sendLoop_client d.listenerFd hd f c rounds d.clients h with h1 | ⟨h1, h2, -, h3⟩
    · exact .inl h1
    · exact .inr ⟨h1, h2, h3⟩

end output

/-! ## One act, one client -/

def Act.chunk : Act → Option (List Byte)
  | .output data _ _ => some data
  | _ => none

theorem Act.chunk_cases (a : Act) : a.chunk = none ∨ ∃ data took rounds, a = .output data took rounds := by
  cases a with
  | output data took rounds => exact .inr ⟨data, took, rounds, rfl⟩
  | _ => exact .inl rfl

theorem scrollback_of_not_output (d : SessionDaemon) {a : Act} (h : a.chunk = none) :
    (d.act a).1.scrollback = d.scrollback := by
  rw [act_scrollback]
  cases a with
  | output data took rounds => cases h
  | _ => rfl

theorem live_of_not_output (d : SessionDaemon) {a : Act} (h : a.chunk = none) (f : RawFd) : liveTo f (d.act a).2 = [] := by
  cases a with
  | poll => rfl
  | accept r took => exact (acceptClient_sends_nothing d r took f).2
  | packet i p =>
    cases hi : d.clients[i]? with
    | none => rw [act_packet_none d p hi]; rfl
    | some c => exact packet_live d p hi f
  | evict => exact liveTo_of_silent (silent_evict d) f
  | drain wfds ans => exact drain_live d wfds ans f
  | output data took rounds => cases h

theorem not_mem_fds_of_clientsAt {cs : List Client} {f : RawFd} (h : clientsAt cs f = []) : f ∉ cs.map (·.fd) := by
  intro hf
  obtain ⟨c, hc, rfl⟩ := List.mem_map.1 hf
  have : c ∈ clientsAt cs c.fd := mem_clientsAt.2 ⟨hc, rfl⟩
  rw [h] at this
  cases this

/-- A descriptor without a client: nothing is sent to it, and only a connection gives it one. -/
theorem act_absent {d : SessionDaemon} {f : RawFd} (h : clientsAt d.clients f = []) (a : Act) :
    replayedTo f (d.act a).2 = [] ∧ liveTo f (d.act a).2 = [] ∧
    (clientsAt (d.act a).1.clients f = [] ∨ ∃ cred took, a = .accept (.conn f true cred) took ∧
      clientsAt (d.act a).1.clients f = [⟨f, false, 0, 0, cred.getD 0⟩]) := by
  have hnone : ∀ c ∈ d.clients, c.fd ≠ f := fun c hc hf => not_mem_fds_of_clientsAt h (List.mem_map.2 ⟨c, hc, hf⟩)
  cases a with
  | poll => exact ⟨rfl, rfl, .inl h⟩
  | accept r took =>
    refine ⟨(acceptClient_sends_nothing d r took f).1, (acceptClient_sends_nothing d r took f).2, ?_⟩
    rw [show (d.act (.accept r took)).1.clients = (d.acceptClient r took).1.clients from rfl, acceptClient_clients]
    split
    · rename_i fd cred
      rw [clientsAt_append, h, clientsAt_cons]
      by_cases hf : fd = f
      · subst hf
        exact .inr ⟨cred, took, rfl, by rw [if_pos rfl]; rfl⟩
      · exact .inl (by rw [if_neg hf]; rfl)
    · exact .inl h
  | packet i p =>
    cases hi : d.clients[i]? with
    | none =>
      rw [act_packet_none d p hi]
      exact ⟨rfl, rfl, .inl h⟩
    | some c =>
      have hc := hnone c (List.mem_of_getElem? hi)
      exact ⟨by rw [packet_replayed d p hi, if_neg hc], packet_live d p hi f,
        .inl (List.Perm.eq_nil (h ▸ packet_clientsAt_other p hi hc))⟩
  | evict =>
    refine ⟨replayedTo_of_silent (silent_evict d) f, liveTo_of_silent (silent_evict d) f, .inl ?_⟩
    simp only [act, evict]
    split
    · exact List.filter_eq_nil_iff.2 (fun c hc => by simpa using hnone c (List.mem_filter.1 hc).1)
    · exact h
  | drain wfds ans =>
    refine ⟨?_, drain_live d wfds ans f, .inl ?_⟩
    · rw [drain_replayed, h]; rfl
    · rw [drain_clientsAt, h]; rfl
  | output data took rounds =>
    obtain ⟨hcl, hlive⟩ := @output_absent d data took rounds f h
    exact ⟨output_replayed took rounds, hlive, .inl hcl⟩

/-- What an act can do to a client: the clients on its descriptor after it, and what is sent there from the scrollback and
live. -/
inductive ClientStep (d : SessionDaemon) (c : Client) : Act → List Client → List Byte → List Byte → Prop
  | apart {a : Act} (hchunk : a.chunk = none)
      (hpkt : ∀ i p, a = .packet i p → ∀ x, d.clients[i]? = some x → x.fd ≠ c.fd) : ClientStep d c a [c] [] []
  | packet {i : Nat} {p : PacketAns} (hi : d.clients[i]? = some c) :
      ClientStep d c (.packet i p) (c.next d.scrollback p).toList (Client.replayOn d.scrollback p) []
  | evicted (ha : c.attached = true) : ClientStep d c .evict [] [] []
  | drained (wfds : FdSet) (ans : RawFd → List WriteRet) :
      ClientStep d c (.drain wfds ans) [(drainClient d.scrollback.toScrollback wfds ans c).1]
        (replayedTo c.fd (drainClient d.scrollback.toScrollback wfds ans c).2) []
  | passed {data : List Byte} {took : Nat} {rounds : List Round} : ClientStep d c (.output data took rounds) [c] [] []
  | taken {data : List Byte} {took : Nat} {rounds : List Round} (ha : c.attached = true) :
      ClientStep d c (.output data took rounds) [c] [] data
  | cut {data : List Byte} {took : Nat} {rounds : List Round} (ha : c.attached = true) (n : Nat) (hn : n < data.length) :
      ClientStep d c (.output data took rounds) [] [] (data.take n)

/-- **Every act does one of these to a client.** -/
theorem act_client {d : SessionDaemon} {c : Client} (h : clientsAt d.clients c.fd = [c]) {a : Act} (hposs : d.Possible a) :
    ClientStep d c a (clientsAt (d.act a).1.clients c.fd) (replayedTo c.fd (d.act a).2) (liveTo c.fd (d.act a).2) := by
  cases a with
  | poll =>
    rw [show (d.act .poll).1.clients = d.clients from rfl, h]
    exact .apart rfl (by simp)
  | accept r took =>
    obtain ⟨hrep, hlive⟩ : replayedTo c.fd (d.act (.accept r took)).2 = [] ∧ liveTo c.fd (d.act (.accept r took)).2 = [] :=
      acceptClient_sends_nothing d r took c.fd
    rw [accept_clientsAt hposs h, hrep, hlive]
    exact .apart rfl (by simp)
  | packet i p =>
    cases hi : d.clients[i]? with
    | none =>
      rw [act_packet_none d p hi, h]
      refine .apart rfl (fun j q hjq x hx => ?_)
      obtain ⟨rfl, rfl⟩ := Act.packet.inj hjq
      rw [hi] at hx
      cases hx
    | some x =>
      rw [packet_live d p hi, packet_replayed d p hi]
      by_cases hx : x.fd = c.fd
      · obtain rfl := eq_of_clientsAt h (List.mem_of_getElem? hi) hx
        rw [packet_clientsAt_self p hi h, if_pos rfl]
        exact .packet hi
      · have hsame : clientsAt (d.act (.packet i p)).1.clients c.fd = [c] :=
          List.perm_singleton.1 (h ▸ packet_clientsAt_other p hi hx)
        rw [hsame, if_neg hx]
        refine .apart rfl (fun j q hjq y hy => ?_)
        obtain ⟨rfl, rfl⟩ := Act.packet.inj hjq
        rw [hi] at hy
        exact Option.some.inj hy ▸ hx
  | evict =>
    have hs := silent_evict d
    rw [evict_clientsAt h, show (d.act .evict).2 = d.evict.2 from rfl, replayedTo_of_silent hs, liveTo_of_silent hs]
    split
    · rename_i he
      exact .evicted he.2
    · exact .apart rfl (by simp)
  | drain wfds ans =>
    rw [drain_clientsAt, drain_replayed, drain_live, h, List.map_singleton, List.flatMap_cons, List.flatMap_nil,
      List.append_nil]
    exact .drained wfds ans
  | output data took rounds =>
    rw [output_replayed]
    rcases output_client took rounds hposs h with ⟨hcl, hlive | ⟨ha, hlive⟩⟩ | ⟨hcl, ha, n, hn, hlive⟩
    · rw [hcl, hlive]; exact .passed
    · rw [hcl, hlive]; exact .taken ha
    · rw [hcl, hlive]; exact .cut ha n hn

/-- An act sends either from the scrollback or live. -/
theorem act_out (d : SessionDaemon) (a : Act) (f : RawFd) :
    outTo f (d.act a).2 = replayedTo f (d.act a).2 ++ liveTo f (d.act a).2 := by
  cases a with
  | output data took rounds =>
    have hnone := @output_replayed d data took rounds f
    rw [outTo_of_replayed_nil f _ hnone, hnone, List.nil_append]
  | _ => rw [live_of_not_output d rfl, List.append_nil, outTo_of_live_nil f _ (live_of_not_output d rfl f)]

/-! ## Where a client comes from -/

/-- How a client of the daemon after an act came to be: unchanged, accepted, after a packet of its own, or drained. -/
inductive From (d : SessionDaemon) : Act → Client → Prop
  | kept {a : Act} {c : Client} (hc : c ∈ d.clients) : From d a c
  | accepted {fd : RawFd} {cred : Option Nat} {took : Nat} :
      From d (.accept (.conn fd true cred) took) ⟨fd, false, 0, 0, cred.getD 0⟩
  | read {i : Nat} {p : PacketAns} {c c' : Client} (hi : d.clients[i]? = some c) (hn : c.next d.scrollback p = some c') :
      From d (.packet i p) c'
  | drained {wfds : FdSet} {ans : RawFd → List WriteRet} {c : Client} (hc : c ∈ d.clients) (hrem : 0 < c.replayRemaining) :
      From d (.drain wfds ans)
        (c.drained (ReplayState.drain d.scrollback.toScrollback ⟨c.replayHead, c.replayRemaining⟩ (ans c.fd)))

theorem mem_swapRemove {α : Type} {l : List α} {i : Nat} {x y : α} (hi : l[i]? = some x) (hy : y ∈ swapRemove l i) :
    y ∈ l := by
  obtain ⟨pre, post, rfl, rfl⟩ := split_of_getElem? hi
  have := (swapRemove_perm pre post x).mem_iff.1 hy
  rcases List.mem_append.1 this with h | h
  · exact List.mem_append_left _ h
  · exact List.mem_append_right _ (List.mem_cons_of_mem _ h)

theorem act_from {d : SessionDaemon} {a : Act} {c' : Client} (h : c' ∈ (d.act a).1.clients) : From d a c' := by
  cases a with
  | poll => exact .kept h
  | accept r took =>
    change c' ∈ (d.acceptClient r took).1.clients at h
    rw [acceptClient_clients] at h
    split at h
    · rcases List.mem_append.1 h with h | h
      · exact .kept h
      · obtain rfl := List.mem_singleton.1 h
        exact .accepted
    · exact .kept h
  | packet i p =>
    cases hi : d.clients[i]? with
    | none =>
      rw [act_packet_none d p hi] at h
      exact .kept h
    | some c =>
      rw [packet_clients d p hi] at h
      cases hn : c.next d.scrollback p with
      | some c₁ =>
        rw [hn] at h
        rcases List.mem_or_eq_of_mem_set h with h | rfl
        · exact .kept h
        · exact .read hi hn
      | none =>
        rw [hn] at h
        exact .kept (mem_swapRemove hi h)
  | evict =>
    simp only [act, evict] at h
    split at h
    · exact .kept (List.mem_filter.1 h).1
    · exact .kept h
  | drain wfds ans =>
    obtain ⟨c, hc, rfl⟩ := List.mem_map.1 h
    unfold drainClient
    by_cases hrem : c.replayRemaining > 0 ∧ c.fd ∈ wfds
    · rw [if_pos hrem]
      exact .drained hc hrem.1
    · rw [if_neg hrem]
      exact .kept hc
  | output data took rounds =>
    rw [output_clients] at h
    unfold sendToClients at h
    split at h
    · exact .kept h
    · exact .kept ((sendLoop_sublist _ _ _ _).subset h)

/-- **In a reachable state every replay cursor is a slot of the ring.** -/
theorem Reachable.cursor_lt {d : SessionDaemon} {fx : List Effect} (hd : Reachable d fx) :
    ∀ c ∈ d.clients, c.replayHead < scrollbackSize := by
  induction hd with
  | new log s g h => exact fun c hc => by cases hc
  | @step d fx a hd ha ih =>
    intro c' hc'
    have hdrain : ∀ (rs : ReplayState) (ws : List WriteRet), rs.head < scrollbackSize →
        (ReplayState.drain d.scrollback.toScrollback rs ws).rs.head < scrollbackSize := fun rs ws h => by
      rw [(ReplayState.drain_spec d.scrollback ws rs h).2.2.1]
      exact Nat.mod_lt _ scrollbackSize_pos
    cases act_from hc' with
    | kept hc => exact ih c' hc
    | accepted => exact scrollbackSize_pos
    | @read i p c c' hi hn =>
      rcases Client.next_cursor hn with ⟨hhead, -⟩ | ⟨hhead, -⟩
      · rw [hhead]
        exact ih c (List.mem_of_getElem? hi)
      · rw [hhead]
        exact hdrain _ _ d.scrollback.head_lt
    | drained hc hrem => exact hdrain _ _ (ih _ hc)

end SessionDaemon

end Zatch
