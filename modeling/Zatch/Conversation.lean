import Zatch.AttachTyped
import Zatch.Child
import Zatch.Descriptors
import Zatch.Framing
import Zatch.Ledger
/-!
# Conversation — an attached client and its session's daemon

The client of `AttachClient` and the daemon of `Daemon` with the socket between them: either takes its next step, in any
order, the daemon doing anything else it does in between.  What an act does to the client is an entry in its record
(`act_entry`), so what holds of a `Ledger` holds of every conversation (`records_run`): the daemon hears the client's packets
in the client's order and its record of the client agrees with them (`daemon_keeps_up`).
-/
namespace Zatch

open Machine (run Along)

/-- The daemon's end of the connection: not accepted yet, on a descriptor, or closed. -/
inductive Link
  | queued
  | on (f : RawFd)
  | cut
deriving DecidableEq, Repr

theorem Link.eq_on_of_some {link : Link} {client : Option Client} {f : RawFd}
    (h : (match link, client with
      | .on g, some x => if x.fd = g then some g else none
      | _, _ => none) = some f) : link = .on f ∧ ∃ x, client = some x ∧ x.fd = f := by
  split at h
  · rename_i g x
    split at h
    · rename_i hx
      obtain rfl := Option.some.inj h
      exact ⟨rfl, x, rfl, hx⟩
    · cases h
  · cases h

/-- A client and its session's daemon. -/
structure Joined where
  client : Proc
  /-- what has been seen of the client -/
  seen : List Seen
  d : SessionDaemon
  link : Link
  /-- what the client has written and the daemon has not read -/
  up : List Byte
  /-- the packets the daemon has read from the client -/
  heard : List Packet
  /-- what the PTY has taken of the Push packets among them -/
  reached : List Byte
  /-- what the daemon has written to the client -/
  down : List Byte
  /-- what the daemon has read from the PTY -/
  output : List Byte

/-- A step of either side: of the client or its signals; of the daemon, which accepts the client's connection, reads from it,
does anything else, or ends. -/
inductive Joint
  | client (ev : ProcEv)
  | accept (r : AcceptRet) (took : Nat)
  | hears (i : Nat) (p : SessionDaemon.PacketAns)
  | daemon (a : SessionDaemon.Act)
  | quits

/-- What the session does to a client is no step of the client's. -/
def ProcEv.own : ProcEv → Bool
  | .arrive _ | .close => false
  | _ => true

/-- What the socket has taken of a packet. -/
def Seen.tookOf : Seen → List Byte
  | .sent _ took => took
  | _ => []

def tookBytes (out : List Seen) : List Byte := out.flatMap Seen.tookOf

def Effect.toldOf (f : RawFd) : Effect → List Byte
  | .told g bs => if g = f then bs else []
  | _ => []

/-- A packet that the socket has taken whole. -/
def Seen.whole : Seen → Bool
  | .sent pkt took => decide (took = pkt.bytes)
  | _ => true

/-- Everything written to a descriptor. -/
def sentTo (f : RawFd) (fx : List Effect) : List Byte := fx.flatMap (fun e => e.replayOf f ++ e.liveOf f ++ e.toldOf f)

theorem sentTo_eq_outTo {f : RawFd} {fx : List Effect} (h : ∀ bs, Effect.told f bs ∉ fx) : sentTo f fx = outTo f fx := by
  unfold sentTo outTo
  refine List.flatMap_congr (fun e he => ?_)
  have hnone : e.toldOf f = [] := by
    cases e with
    | told g bs =>
      simp only [Effect.toldOf]
      rw [if_neg]
      rintro rfl
      exact h bs he
    | _ => rfl
  rw [hnone, List.append_nil]

/-- `read_from` has given up for want of bytes. -/
def gaveUp : Except ProtocolError Packet → Bool
  | .error .wouldBlock => true
  | _ => false

/-- What has been read. -/
def packetOf : Except ProtocolError Packet → List Packet
  | .ok pkt => [pkt]
  | .error _ => []

/-- What the PTY has taken, when it is a Push that has been read. -/
def pushTook (res : Except ProtocolError Packet) (fx : List Effect) : List Byte :=
  match res with
  | .ok pkt => if pkt.msgType = MsgType.push.toU8 then ptyTook fx else []
  | .error _ => []

namespace SessionDaemon

/-! ## What an act is to a client's record -/

theorem mem_tell {e : Effect} {fd : RawFd} : ∀ {ts : List (List Byte)} {ws : List WriteRet}, e ∈ tell fd ts ws →
    ∃ bs, e = .told fd bs
  | t :: ts, ws, he => by
    rcases List.mem_cons.1 he with rfl | he
    · exact ⟨_, rfl⟩
    · exact mem_tell he

theorem mem_ptyWrite {e : Effect} {bs : List Byte} {w : WriteRet} (he : e ∈ ptyWrite bs w) : ∃ n, e = .ptyWrote (bs.take n) := by
  unfold ptyWrite at he
  split at he
  · exact ⟨_, List.mem_singleton.1 he⟩
  · cases he

/-- Only an Info is answered with text, and to the client that has sent it. -/
theorem told_dispatch {d : SessionDaemon} {i : Nat} {cfd g : RawFd} {pkt : Packet} {p : PacketAns} {bs : List Byte}
    (h : Effect.told g bs ∈ (d.dispatch i cfd pkt p).fx) : g = cfd ∧ MsgType.fromU8 pkt.msgType = some .info := by
  have hpty : ∀ bs' w, Effect.told g bs ∉ ptyWrite bs' w := by
    intro bs' w hmem
    obtain ⟨n, heq⟩ := mem_ptyWrite hmem
    cases heq
  unfold dispatch at h
  split at h
  · simp only [handlePush] at h
    split at h
    · exact absurd h (hpty _ _)
    · cases h
  · simp only [handleAttach] at h
    split at h
    · cases h
    · cases List.mem_singleton.1 h
  · cases h
  · cases List.mem_singleton.1 h
  · simp only [handleRedraw] at h
    split at h
    · split at h
      · rcases List.mem_cons.1 h with heq | h
        · cases heq
        · exact absurd h (hpty _ _)
      · cases List.mem_singleton.1 h
    · split at h
      · simp at h
      · cases List.mem_singleton.1 h
  · cases List.mem_singleton.1 h
  · cases h
  · rename_i ht
    obtain ⟨bs', heq⟩ := mem_tell h
    exact ⟨(Effect.told.inj heq).1, ht⟩
  · cases h

theorem told_act {d : SessionDaemon} {a : Act} {g : RawFd} {bs : List Byte} (h : Effect.told g bs ∈ (d.act a).2) :
    ∃ i p x, a = .packet i p ∧ d.clients[i]? = some x ∧ x.fd = g ∧ x.next d.scrollback p = none := by
  have hmay := act_mayDo d a _ h
  cases a with
  | packet i p =>
    cases hi : d.clients[i]? with
    | none =>
      rw [act_packet_none d p hi] at h
      cases h
    | some x =>
      rw [act_packet d p hi] at h
      have hnext : ∀ pkt, (Packet.readFrom p.inp p.reads).res = .ok pkt →
          Effect.told g bs ∈ (d.dispatch i x.fd pkt p).fx → x.fd = g ∧ x.next d.scrollback p = none := by
        intro pkt hres hmem
        obtain ⟨rfl, ht⟩ := told_dispatch hmem
        refine ⟨rfl, ?_⟩
        simp only [Client.next, PacketAns.res, hres, ht]
      simp only [visit] at h
      cases hres : (Packet.readFrom p.inp p.reads).res with
      | error e =>
        rw [hres] at h
        cases e <;> simp [drop] at h
      | ok pkt =>
        rw [hres] at h
        simp only at h
        have hmem : Effect.told g bs ∈ (d.dispatch i x.fd pkt p).fx := by
          split at h
          · simpa using h
          · simpa [drop] using h
        exact ⟨i, p, x, rfl, hi, hnext pkt hres hmem⟩
  | _ => cases hmay

/-- The packet that an act reads from a descriptor. -/
def heardBy (f : RawFd) (d : SessionDaemon) : Act → List Packet
  | .packet i p =>
    match d.clients[i]? with
    | some x => if x.fd = f then packetOf p.res else []
    | none => []
  | _ => []

theorem heardBy_apart {f : RawFd} {d : SessionDaemon} {a : Act}
    (h : ∀ i p, a = .packet i p → ∀ y, d.clients[i]? = some y → y.fd ≠ f) : heardBy f d a = [] := by
  cases a with
  | packet i p =>
    simp only [heardBy]
    split
    · rename_i y hy
      rw [if_neg (h i p rfl y hy)]
    · rfl
  | _ => rfl

/-- To a client that stays an act sends only what it replays and the chunk. -/
theorem sentTo_act {d : SessionDaemon} {f : RawFd} (hn : (d.clients.map (·.fd)).Nodup) {a : Act}
    (hne : clientsAt (d.act a).1.clients f ≠ []) : sentTo f (d.act a).2 = outTo f (d.act a).2 := by
  refine sentTo_eq_outTo (fun bs hbs => ?_)
  obtain ⟨i, p, y, rfl, hi, rfl, hnone⟩ := told_act hbs
  have hself := packet_clientsAt_self p hi (nodup_clientsAt hn hi)
  rw [hnone] at hself
  exact hne hself

/-- The client on a descriptor is fed with the act's chunk: none comes while its replay is pending, and once it is attached it
takes it in full. -/
def Feeds (f : RawFd) (d : SessionDaemon) (a : Act) : Prop :=
  NotWhilePending f d a ∧ ∀ x ∈ d.clients, x.fd = f → x.attached = true → AcceptsAt f d a

instance (r : Round) : Decidable (∀ e, r.sel = .fail e → e = .eintr) :=
  match h : r.sel with
  | .ready _ _ => isTrue (fun _ he => by cases he)
  | .fail e => decidable_of_iff (e = .eintr) ⟨fun he _ h' => SelectRet.fail.inj h' ▸ he, fun h' => h' e rfl⟩

instance (f : RawFd) (data : List Byte) (r : Round) :
    Decidable ((∀ rd w, r.sel = .ready rd w → f ∈ w) ∧ ∃ n, r.wrote f = .room n ∧ data.length ≤ n) :=
  have hready : Decidable (∀ rd w, r.sel = .ready rd w → f ∈ w) :=
    match h : r.sel with
    | .ready rd w => decidable_of_iff (f ∈ w) ⟨fun hf _ _ h' => (SelectRet.ready.inj h').2 ▸ hf, fun h' => h' rd w rfl⟩
    | .fail e => isTrue (fun _ _ he => by cases he)
  have hroom : Decidable (∃ n, r.wrote f = .room n ∧ data.length ≤ n) :=
    inferInstanceAs (Decidable (InFull (r.wrote f) data.length))
  @instDecidableAnd _ _ hready hroom

instance (f : RawFd) (d : SessionDaemon) (a : Act) : Decidable (AcceptsAt f d a) :=
  match a with
  | .output data _ rounds => inferInstanceAs (Decidable (((∀ r ∈ rounds, ∀ e, r.sel = .fail e → e = .eintr) ∧
      (d.sendToClients data rounds).returned = true) ∧
        ∀ r ∈ rounds, (∀ rd w, r.sel = .ready rd w → f ∈ w) ∧ ∃ n, r.wrote f = .room n ∧ data.length ≤ n))
  | .poll | .accept _ _ | .packet _ _ | .evict | .drain _ _ => isTrue trivial

instance (f : RawFd) (d : SessionDaemon) (a : Act) : Decidable (Feeds f d a) :=
  inferInstanceAs (Decidable (NotWhilePending f d a ∧
    ∀ x ∈ d.clients, x.fd = f → x.attached = true → AcceptsAt f d a))

/-- The client keeps up with the act: it is fed with the chunk, and no Detach is read from it. -/
def KeepsUp (f : RawFd) (d : SessionDaemon) (a : Act) : Prop :=
  Feeds f d a ∧ ∀ pkt ∈ heardBy f d a, pkt.msgType ≠ MsgType.detach.toU8

/-- **An act is an entry in the record of each client**, or closes the client's connection. -/
theorem act_entry {d : SessionDaemon} {f : RawFd} {x : Client} (hn : (d.clients.map (·.fd)).Nodup)
    (hx : clientsAt d.clients f = [x]) {a : Act} (hposs : d.Possible a) :
    Effect.closed f ∈ (d.act a).2 ∨
    Effect.closed f ∉ (d.act a).2 ∧ ∃ x' e, clientsAt (d.act a).1.clients f = [x'] ∧
      ∀ heard down output, let r : Ledger := ⟨x, d.scrollback, heard, down, output⟩
        r.Allows e ∧ (KeepsUp f d a → r.Smooth e) ∧
        r.enter e = ⟨x', (d.act a).1.scrollback, heard ++ heardBy f d a, down ++ sentTo f (d.act a).2,
          output ++ a.chunk.getD []⟩ := by
  obtain ⟨hmem, rfl⟩ := fd_of_clientsAt hx
  have hclosed := closed_act_iff hn hx hposs
  have htold := @sentTo_act d x.fd hn a
  have hstep := act_client hx hposs
  have hout := act_out d a x.fd
  have hring := act_scrollback d a
  have hall : ∀ data took rounds, a = .output data took rounds → x.attached = true → AcceptsAt x.fd d a →
      liveTo x.fd (d.act a).2 = data := by
    rintro data took rounds rfl hatt hacc
    exact (output_accepting hatt hx hacc).2
  generalize hafter : clientsAt (d.act a).1.clients x.fd = after at hstep hclosed htold
  have hkept : ∀ x', after = [x'] → Effect.closed x.fd ∉ (d.act a).2 := by
    intro x' hx' hcl
    exact List.cons_ne_nil x' [] (hx'.symm.trans (hclosed.1 hcl))
  generalize replayedTo x.fd (d.act a).2 = rep, liveTo x.fd (d.act a).2 = lv at hstep hout hall
  cases hstep with
  | apart hchunk hpkt =>
    refine .inr ⟨hkept x rfl, x, .still, rfl, fun heard down output => ⟨trivial, fun _ => trivial, ?_⟩⟩
    rw [htold (List.cons_ne_nil _ _), hout, heardBy_apart hpkt, hchunk, scrollback_of_not_output d hchunk]
    simp [Ledger.enter]
  | @packet i p hi =>
    have hheard : heardBy x.fd d (.packet i p) = packetOf p.res := by
      simp only [heardBy, hi, if_true]
    cases hn : x.next d.scrollback p with
    | none =>
      rw [hn] at hclosed
      exact .inl (hclosed.2 rfl)
    | some x' =>
      rw [hn] at hkept htold
      rw [htold (List.cons_ne_nil _ _), hout, hring]
      cases hres : p.res with
      | ok pkt =>
        refine .inr ⟨hkept x' rfl, x', .packet p pkt, rfl, fun heard down output => ⟨hres, fun hk => ?_, ?_⟩⟩
        · exact hk.2 pkt (by rw [hheard, hres]; exact List.mem_singleton_self pkt)
        · rw [hheard, hres]
          simp [Ledger.enter, hn, packetOf, Act.chunk]
      | error e =>
        obtain rfl := Client.next_of_error hres hn
        refine .inr ⟨hkept x' rfl, x', .still, rfl, fun heard down output => ⟨trivial, fun _ => trivial, ?_⟩⟩
        rw [hheard, hres, Client.replayOn_of_error hres]
        simp [Ledger.enter, packetOf, Act.chunk]
  | evicted ha => exact .inl (hclosed.2 rfl)
  | drained wfds ans =>
    refine .inr ⟨hkept _ rfl, _, .drained wfds ans, rfl, fun heard down output => ⟨trivial, fun _ => trivial, ?_⟩⟩
    rw [htold (List.cons_ne_nil _ _), hout, hring]
    simp [Ledger.enter, heardBy, Act.chunk]
  | @passed data took rounds =>
    refine .inr ⟨hkept x rfl, x, .chunk data false, rfl, fun heard down output => ⟨(by simp [Ledger.Allows]), fun hk => ?_, ?_⟩⟩
    · refine ⟨hk.1.1 x hmem rfl, fun hatt => ?_⟩
      exact absurd (hall data took rounds rfl hatt (hk.1.2 x hmem rfl hatt)).symm hposs
    · rw [htold (List.cons_ne_nil _ _), hout, hring]
      simp [Ledger.enter, heardBy, Act.chunk]
  | taken ha =>
    refine .inr ⟨hkept x rfl, x, .chunk lv true, rfl, fun heard down output => ⟨fun _ => ha, fun hk => ?_, ?_⟩⟩
    · exact ⟨hk.1.1 x hmem rfl, fun _ => rfl⟩
    · rw [htold (List.cons_ne_nil _ _), hout, hring]
      simp [Ledger.enter, heardBy, Act.chunk]
  | cut ha n hn => exact .inl (hclosed.2 rfl)

end SessionDaemon

namespace Joined

open SessionDaemon (act clientsAt)

def begin (c : Attaching) (d : SessionDaemon) : Joined where
  client := Proc.begin c
  seen := []
  d := d
  link := .queued
  up := []
  heard := []
  reached := []
  down := []
  output := []

variable (c : Attaching)

/-- The client at these events. -/
def clientDoes (evs : List ProcEv) (s : Joined) : Joined where
  client := (run (Proc.step c) s.client evs).1
  seen := s.seen ++ (run (Proc.step c) s.client evs).2
  d := s.d
  link := s.link
  up := s.up ++ tookBytes (run (Proc.step c) s.client evs).2
  heard := s.heard
  reached := s.reached
  down := s.down
  output := s.output

/-- What reaches the client of what the daemon does. -/
def arrivals (f : RawFd) (fx : List Effect) : List ProcEv :=
  .arrive (sentTo f fx) :: if Effect.closed f ∈ fx then [.close] else []

/-- The daemon after a step of its own, with the client on this descriptor. -/
def after (f : RawFd) (o : SessionDaemon × List Effect) (s : Joined) : Joined :=
  { s.clientDoes c (arrivals f o.2) with
    d := o.1
    link := if Effect.closed f ∈ o.2 then .cut else .on f
    down := s.down ++ sentTo f o.2 }

/-- The descriptor of the daemon's client with this index, when it is this client's. -/
def heardOn (s : Joined) (i : Nat) : Option RawFd :=
  match s.link, s.d.clients[i]? with
  | .on f, some x => if x.fd = f then some f else none
  | _, _ => none

/-- An act that reads from the client. -/
def hearing (s : Joined) : SessionDaemon.Act → Bool
  | .packet i _ => (s.heardOn i).isSome
  | _ => false

def step (s : Joined) : Joint → Joined × List Effect
  | .client ev => (if ev.own then s.clientDoes c [ev] else s, [])
  | .accept r took =>
    match s.link with
    | .queued =>
      let o := s.d.act (.accept r took)
      match r with
      | .conn f true _ => ({ s with d := o.1, link := .on f }, o.2)
      | .conn _ false _ => ({ s.clientDoes c [.close] with d := o.1, link := .cut }, o.2)
      | .fail _ => ({ s with d := o.1 }, o.2)
    | _ => (s, [])
  | .hears i p =>
    match s.heardOn i with
    | some f =>
      let read := Packet.readFrom s.up p.reads
      let o := s.d.act (.packet i { p with inp := s.up })
      (after c f o { s with
        up := read.inp
        heard := s.heard ++ packetOf read.res
        reached := s.reached ++ pushTook read.res o.2 }, o.2)
    | none => (s, [])
  | .daemon a =>
    if s.hearing a then (s, [])
    else
      let o := s.d.act a
      let s := { s with output := s.output ++ a.chunk.getD [] }
      match s.link with
      | .on f => (s.after c f o, o.2)
      | _ => ({ s with d := o.1 }, o.2)
  | .quits => ({ s.clientDoes c [.close] with link := .cut }, [])

/-- The kernel's part of a step. -/
def Possible (s : Joined) : Joint → Prop
  | .accept r took => s.d.Possible (.accept r took)
  | .daemon a => s.d.Possible a
  | _ => True

instance (s : Joined) (ev : Joint) : Decidable (Possible s ev) :=
  match ev with
  | .accept r took => inferInstanceAs (Decidable (s.d.Possible (.accept r took)))
  | .daemon a => inferInstanceAs (Decidable (s.d.Possible a))
  | .client _ | .hears _ _ | .quits => isTrue trivial

/-- A condition on the client's own steps. -/
def OfClient (P : Proc → ProcEv → Prop) (s : Joined) : Joint → Prop
  | .client ev => P s.client ev
  | _ => True

instance (P : Proc → ProcEv → Prop) [∀ p ev, Decidable (P p ev)] (s : Joined) (ev : Joint) : Decidable (OfClient P s ev) :=
  match ev with
  | .client ev => inferInstanceAs (Decidable (P s.client ev))
  | .accept _ _ | .hears _ _ | .daemon _ | .quits => isTrue trivial

/-! ## The client's side -/

/-- **The client's part of a step** is a run of the client. -/
theorem step_client (P : Proc → ProcEv → Prop) (harr : ∀ p bs, P p (.arrive bs)) (hclose : ∀ p, P p .close) (s : Joined)
    (ev : Joint) (h : OfClient P s ev) : ∃ evs, Along (Proc.step c) P s.client evs ∧
      (s.step c ev).1.client = (run (Proc.step c) s.client evs).1 ∧
      (s.step c ev).1.seen = s.seen ++ (run (Proc.step c) s.client evs).2 := by
  have hstill : ∃ evs, Along (Proc.step c) P s.client evs ∧ s.client = (run (Proc.step c) s.client evs).1 ∧
      s.seen = s.seen ++ (run (Proc.step c) s.client evs).2 := ⟨[], trivial, rfl, (List.append_nil _).symm⟩
  have harrivals : ∀ f fx, Along (Proc.step c) P s.client (arrivals f fx) := by
    intro f fx
    refine ⟨harr _ _, ?_⟩
    split
    · exact ⟨hclose _, trivial⟩
    · trivial
  cases ev with
  | client ev =>
    simp only [step]
    split
    · exact ⟨[ev], ⟨h, trivial⟩, rfl, rfl⟩
    · exact hstill
  | accept r took =>
    simp only [step]
    split
    · split
      · exact hstill
      · exact ⟨[.close], ⟨hclose _, trivial⟩, rfl, rfl⟩
      · exact hstill
    · exact hstill
  | hears i p =>
    simp only [step]
    split
    · exact ⟨_, harrivals _ _, rfl, rfl⟩
    · exact hstill
  | daemon a =>
    simp only [step]
    split
    · exact hstill
    · split
      · exact ⟨_, harrivals _ _, rfl, rfl⟩
      · exact hstill
  | quits => exact ⟨[.close], ⟨hclose _, trivial⟩, rfl, rfl⟩

/-- **The client's part of a conversation** is a run of the client. -/
theorem run_client (P : Proc → ProcEv → Prop) (harr : ∀ p bs, P p (.arrive bs)) (hclose : ∀ p, P p .close)
    (d : SessionDaemon) (evs : List Joint) (h : Along (step c) (OfClient P) (begin c d) evs) :
    let s := (run (step c) (begin c d) evs).1
    ∃ cevs, Along (Proc.step c) P (Proc.begin c) cevs ∧ run (Proc.step c) (Proc.begin c) cevs = (s.client, s.seen) := by
  let R : Joined → Prop := fun s =>
    ∃ cevs, Along (Proc.step c) P (Proc.begin c) cevs ∧ run (Proc.step c) (Proc.begin c) cevs = (s.client, s.seen)
  refine Along.inv (I := R) ?_ (show R (begin c d) from ⟨[], trivial, rfl⟩) h
  rintro s ev ⟨cevs, halong, hrun⟩ hev
  obtain ⟨more, hmore, hclient, hseen⟩ := step_client c P harr hclose s ev hev
  refine ⟨cevs ++ more, (Machine.along_append _ _ _ _).2 ⟨halong, by rw [hrun]; exact hmore⟩, ?_⟩
  rw [Machine.run_append, hrun, hclient, hseen]

/-! ## The packets -/

/-- The socket takes each packet of the client whole, and the daemon does not give up in the middle of one. -/
def Whole (s : Joined) : Joint → Prop
  | .client ev => s.link = .cut ∨ ∀ x ∈ (s.client.step c ev).2, x.whole = true
  | .hears _ p => gaveUp (Packet.readFrom s.up p.reads).res = true → (Packet.readFrom s.up p.reads).inp = s.up
  | _ => True

instance (s : Joined) (ev : Joint) : Decidable (Whole c s ev) :=
  match ev with
  | .client ev => inferInstanceAs (Decidable (s.link = .cut ∨ ∀ x ∈ (s.client.step c ev).2, x.whole = true))
  | .hears _ p => inferInstanceAs (Decidable (gaveUp (Packet.readFrom s.up p.reads).res = true →
      (Packet.readFrom s.up p.reads).inp = s.up))
  | .accept _ _ | .daemon _ | .quits => isTrue trivial

/-- What the client has written is what the daemon has heard, and after it what is on its way. -/
def Framed (s : Joined) : Prop :=
  ∃ rest, s.seen.filterMap Seen.packet = s.heard ++ rest ∧ (s.link ≠ .cut → s.up = rest.flatMap Packet.bytes)

theorem heardOn_eq_some {s : Joined} {i : Nat} {f : RawFd} (h : s.heardOn i = some f) :
    s.link = .on f ∧ ∃ x, s.d.clients[i]? = some x ∧ x.fd = f :=
  Link.eq_on_of_some h

theorem run_arrivals (f : RawFd) (fx : List Effect) (p : Proc) :
    (run (Proc.step c) p (arrivals f fx)).2 = if p.closed then [] else [.arrived (sentTo f fx)] := by
  have hclose : ∀ p, (run (Proc.step c) p (if Effect.closed f ∈ fx then [.close] else [])).2 = [] := by
    intro p
    split <;> rfl
  rw [arrivals, Machine.run_cons, hclose, List.append_nil]
  simp only [Proc.step]
  split <;> rfl

theorem arrivals_quiet (f : RawFd) (fx : List Effect) (p : Proc) :
    (run (Proc.step c) p (arrivals f fx)).2.filterMap Seen.packet = [] ∧
      tookBytes (run (Proc.step c) p (arrivals f fx)).2 = [] := by
  rw [run_arrivals]
  split <;> exact ⟨rfl, rfl⟩

theorem tookBytes_of_whole : ∀ {out : List Seen}, (∀ x ∈ out, x.whole = true) →
    tookBytes out = (out.filterMap Seen.packet).flatMap Packet.bytes
  | [], _ => rfl
  | x :: out, h => by
    have ih := tookBytes_of_whole (fun y hy => h y (List.mem_cons_of_mem _ hy))
    have hx := h x List.mem_cons_self
    have hcons : tookBytes (x :: out) = x.tookOf ++ tookBytes out := rfl
    rw [hcons, ih]
    cases x with
    | sent pkt took =>
      have htook : took = pkt.bytes := of_decide_eq_true hx
      simp [Seen.tookOf, Seen.packet, htook]
    | _ => rfl

/-- A packet that is heard is the next of those on their way. -/
theorem Framed.hears {s : Joined} (h : Framed s) {i : Nat} {p : SessionDaemon.PacketAns} {f : RawFd} (hf : s.heardOn i = some f)
    (hw : Whole c s (.hears i p)) :
    Framed (after c f (s.d.act (.packet i { p with inp := s.up })) { s with
      up := (Packet.readFrom s.up p.reads).inp
      heard := s.heard ++ packetOf (Packet.readFrom s.up p.reads).res
      reached := s.reached ++ pushTook (Packet.readFrom s.up p.reads).res (s.d.act (.packet i { p with inp := s.up })).2 }) := by
  obtain ⟨rest, hsent, hup⟩ := h
  obtain ⟨hlink, x, hi, rfl⟩ := heardOn_eq_some hf
  have hbytes := hup (by rw [hlink]; simp)
  obtain ⟨hquiet, htook⟩ := arrivals_quiet c x.fd (s.d.act (.packet i { p with inp := s.up })).2 s.client
  have hclosed : x.next s.d.scrollback { p with inp := s.up } = none →
      Effect.closed x.fd ∈ (s.d.act (.packet i { p with inp := s.up })).2 :=
    SessionDaemon.packet_closed s.d _ hi
  have hres : SessionDaemon.PacketAns.res { p with inp := s.up } = (Packet.readFrom s.up p.reads).res := rfl
  cases hread : (Packet.readFrom s.up p.reads).res with
  | ok pkt =>
    have hsplit : s.up = pkt.bytes ++ (Packet.readFrom s.up p.reads).inp :=
      Packet.readLoop_ok p.reads [] s.up pkt (Nat.zero_le _) hread
    obtain ⟨rest', rfl, hleft⟩ := Packet.cut_unique [pkt] rest (Packet.readFrom s.up p.reads).inp
      (by rw [← hbytes]; simpa using hsplit)
    refine ⟨rest', ?_, fun _ => ?_⟩
    · simp only [after, clientDoes, List.filterMap_append, hquiet, List.append_nil, packetOf]
      rw [hsent, List.append_assoc]
    · simp only [after, clientDoes, htook, List.append_nil]
      exact hleft
  | error e =>
    refine ⟨rest, ?_, fun hlink' => ?_⟩
    · simp only [after, clientDoes, List.filterMap_append, hquiet, List.append_nil, packetOf]
      exact hsent
    · simp only [after, clientDoes, htook, List.append_nil]
      cases e with
      | wouldBlock => exact (hw (by rw [hread]; rfl)).trans hbytes
      | eof =>
        have hcl := hclosed (by simp only [Client.next, hres, hread])
        simp only [after, hcl, if_true] at hlink'
        exact absurd rfl hlink'
      | io n =>
        have hcl := hclosed (by simp only [Client.next, hres, hread])
        simp only [after, hcl, if_true] at hlink'
        exact absurd rfl hlink'

theorem framed_step {s : Joined} {ev : Joint} (h : Framed s) (hw : Whole c s ev) : Framed (s.step c ev).1 := by
  obtain ⟨rest, hsent, hup⟩ := h
  have hstill : Framed s := ⟨rest, hsent, hup⟩
  cases ev with
  | client ev =>
    simp only [step]
    split
    · refine ⟨rest ++ (s.client.step c ev).2.filterMap Seen.packet, ?_, fun hlink => ?_⟩
      · simp only [clientDoes, Machine.run_singleton]
        rw [List.filterMap_append, hsent, List.append_assoc]
      · simp only [clientDoes, Machine.run_singleton]
        rw [hup hlink, tookBytes_of_whole (hw.resolve_left hlink), List.flatMap_append]
    · exact hstill
  | accept r took =>
    simp only [step]
    split
    · rename_i hq
      split
      · exact ⟨rest, hsent, fun _ => hup (by rw [hq]; simp)⟩
      · refine ⟨rest, ?_, fun hlink => absurd rfl hlink⟩
        simpa [clientDoes, Proc.step] using hsent
      · exact ⟨rest, hsent, hup⟩
    · exact hstill
  | hears i p =>
    simp only [step]
    split
    · rename_i f hf
      exact hstill.hears c hf hw
    · exact hstill
  | daemon a =>
    simp only [step]
    split
    · exact hstill
    · split
      · rename_i f hlink
        obtain ⟨hquiet, htook⟩ := arrivals_quiet c f (s.d.act a).2 s.client
        refine ⟨rest, ?_, fun _ => ?_⟩
        · simp only [after, clientDoes, List.filterMap_append, hquiet, List.append_nil]
          exact hsent
        · simp only [after, clientDoes, htook, List.append_nil]
          exact hup (by rw [hlink]; simp)
      · exact ⟨rest, hsent, hup⟩
  | quits =>
    refine ⟨rest, ?_, fun hlink => absurd rfl hlink⟩
    simpa [step, clientDoes, Proc.step] using hsent

theorem framed_run (d : SessionDaemon) (evs : List Joint) (h : Along (step c) (Whole c) (begin c d) evs) :
    Framed (run (step c) (begin c d) evs).1 :=
  Along.inv (fun _ _ hs hw => framed_step c hs hw) (⟨[], rfl, fun _ => rfl⟩ : Framed (begin c d)) h

/-- With nothing on its way, the daemon has heard all that the client has written. -/
theorem nil_of_nothing_on_way {rest : List Packet} (h : rest.flatMap Packet.bytes = []) : rest = [] := by
  have hlen := congrArg List.length h
  rw [Packet.length_flatMap_bytes, List.length_nil] at hlen
  exact List.length_eq_zero_iff.1 (by simp only [packetSize] at hlen; omega)

/-- The packets the daemon has heard come in a client's order. -/
def InOrder (s : Joined) : Prop :=
  ∃ q, (Talk.toAttach (if c.skipRing then 1 else 0)).over c.redrawMethod.toU8 s.heard = some q

theorem run_in_order (d : SessionDaemon) (evs : List Joint) (h : Along (step c) (Whole c) (begin c d) evs) :
    InOrder c (run (step c) (begin c d) evs).1 := by
  obtain ⟨rest, hsent, -⟩ := framed_run c d evs h
  obtain ⟨cevs, -, hrun⟩ := run_client c (fun _ _ => True) (fun _ _ => trivial) (fun _ => trivial) d evs
    (h.mono (fun s ev _ => by cases ev <;> trivial))
  obtain ⟨q, hq, -⟩ := talk_run c cevs
  rw [hrun, Talk.after, hsent] at hq
  have hsplit := Talk.over_append c.redrawMethod.toU8 (.toAttach (if c.skipRing then 1 else 0))
    (run (step c) (begin c d) evs).1.heard rest
  rw [Talk.over, hq] at hsplit
  obtain ⟨q', hq', -⟩ := Option.bind_eq_some_iff.1 hsplit.symm
  exact ⟨q', hq'⟩

/-- After every step of a conversation too. -/
theorem along_in_order (d : SessionDaemon) (evs : List Joint) (h : Along (step c) (Whole c) (begin c d) evs) :
    Along (step c) (fun s ev => InOrder c (s.step c ev).1) (begin c d) evs := by
  refine (Machine.along_iff _ _ _).2 (fun pre ev post hs => ?_)
  have hpre : Along (step c) (Whole c) (begin c d) (pre ++ [ev]) := by
    rw [hs, ← List.singleton_append, ← List.append_assoc] at h
    exact ((Machine.along_append _ _ _ _).1 h).1
  have := run_in_order c d (pre ++ [ev]) hpre
  rwa [Machine.run_append, Machine.run_singleton] at this

/-! ## The record -/

/-- The client, as the daemon has it. -/
def ledger (s : Joined) (x : Client) : Ledger := ⟨x, s.d.scrollback, s.heard, s.down, s.output⟩

/-- The client keeps up with the session: it is fed with every chunk, and no Detach is heard. -/
def KeepsUp (s : Joined) : Joint → Prop
  | .hears _ p => ∀ pkt ∈ packetOf (Packet.readFrom s.up p.reads).res, pkt.msgType ≠ MsgType.detach.toU8
  | .daemon a => ∀ f, s.link = .on f → SessionDaemon.Feeds f s.d a
  | _ => True

/-- What holds of the record of the client, before it is accepted of the one it is to have. -/
structure Records (I : Ledger → Prop) (s : Joined) : Prop where
  nodup : (s.d.clients.map (·.fd)).Nodup
  queued : s.link = .queued → ∀ fd cred, I (s.ledger ⟨fd, false, 0, 0, cred⟩)
  on : ∀ f, s.link = .on f → ∃ x, clientsAt s.d.clients f = [x] ∧ I (s.ledger x)

/-- The entries keep what holds of the record, as long as the packets come in order. -/
def Kept (I : Ledger → Prop) (smooth : Prop) : Prop :=
  ∀ (r : Ledger) (e : Entry), I r → r.Allows e → (smooth → r.Smooth e) →
    (∃ q, (Talk.toAttach (if c.skipRing then 1 else 0)).over c.redrawMethod.toU8 (r.enter e).heard = some q) → I (r.enter e)

/-- **A step of the daemon with the client on it** is an entry in the client's record, or ends the connection. -/
theorem Records.after {I : Ledger → Prop} {smooth : Prop} (hI : Kept c I smooth) {s s' : Joined} {f : RawFd} {x : Client}
    {a : SessionDaemon.Act} (hn : (s.d.clients.map (·.fd)).Nodup) (hx : clientsAt s.d.clients f = [x]) (hr : I (s.ledger x))
    (hposs : s.d.Possible a) (hk : smooth → SessionDaemon.KeepsUp f s.d a) (horder : InOrder c s')
    (hd : s'.d = (s.d.act a).1) (hlink : s'.link = if Effect.closed f ∈ (s.d.act a).2 then .cut else .on f)
    (hheard : s'.heard = s.heard ++ SessionDaemon.heardBy f s.d a) (hdown : s'.down = s.down ++ sentTo f (s.d.act a).2)
    (hout : s'.output = s.output ++ a.chunk.getD []) : Records I s' := by
  refine ⟨by rw [hd]; exact SessionDaemon.act_nodup hn hposs, fun hq => ?_, fun g hg => ?_⟩
  · rw [hlink] at hq
    split at hq <;> cases hq
  · rcases SessionDaemon.act_entry hn hx hposs with hcl | ⟨hcl, x', e, hx', he⟩
    · rw [hlink, if_pos hcl] at hg
      cases hg
    · rw [hlink, if_neg hcl] at hg
      obtain rfl := Link.on.inj hg
      obtain ⟨hallows, hsmooth, henter⟩ := he s.heard s.down s.output
      have hledger : s'.ledger x' = (s.ledger x).enter e := by
        show _ = Ledger.enter ⟨x, s.d.scrollback, s.heard, s.down, s.output⟩ e
        rw [henter, ledger, hd, hheard, hdown, hout]
      refine ⟨x', by rw [hd]; exact hx', ?_⟩
      rw [hledger]
      apply hI _ e hr hallows (fun h => hsmooth (hk h))
      obtain ⟨q, hq⟩ := horder
      exact ⟨q, by rw [← hledger]; exact hq⟩

/-- Accepting the client's connection begins its record. -/
theorem Records.accept {I : Ledger → Prop} {s : Joined} (h : Records I s) {r : AcceptRet} {took : Nat}
    (hposs : s.d.Possible (.accept r took)) : Records I (s.step c (.accept r took)).1 := by
  obtain ⟨hn, hqueued, hon⟩ := h
  have hstill : Records I s := ⟨hn, hqueued, hon⟩
  have hn' : ((s.d.act (.accept r took)).1.clients.map (·.fd)).Nodup := SessionDaemon.act_nodup hn hposs
  have hring : (s.d.act (.accept r took)).1.scrollback = s.d.scrollback := SessionDaemon.act_scrollback s.d (.accept r took)
  simp only [step]
  split
  · rename_i hlink
    split
    · rename_i f cred
      refine ⟨hn', (fun h => by cases h), fun g hg => ?_⟩
      obtain rfl := Link.on.inj hg
      have hnone : clientsAt s.d.clients f = [] := by
        rcases SessionDaemon.clientsAt_cases hn f with h | ⟨x, h⟩
        · exact h
        · exact absurd (List.mem_map.2 ⟨x, SessionDaemon.fd_of_clientsAt h⟩) hposs.1
      refine ⟨⟨f, false, 0, 0, cred.getD 0⟩, ?_, ?_⟩
      · show clientsAt (s.d.clients ++ [⟨f, false, 0, 0, cred.getD 0⟩]) f = _
        rw [SessionDaemon.clientsAt_append, hnone]
        simp [clientsAt]
      · exact hqueued hlink f (cred.getD 0)
    · exact ⟨hn', (fun h => by cases h), fun g hg => by cases hg⟩
    · refine ⟨hn', fun _ fd cred => ?_, fun g hg => ?_⟩
      · exact hqueued hlink fd cred
      · rw [show s.link = _ from hg] at hlink
        cases hlink
  · exact hstill

theorem records_step {I : Ledger → Prop} {smooth : Prop} (hI : Kept c I smooth) {s : Joined} {ev : Joint}
    (h : Records I s) (hposs : Possible s ev) (hk : smooth → KeepsUp s ev) (horder : InOrder c (s.step c ev).1) :
    Records I (s.step c ev).1 := by
  obtain ⟨hn, hqueued, hon⟩ := h
  have hstill : Records I s := ⟨hn, hqueued, hon⟩
  cases ev with
  | client ev =>
    simp only [step]
    split
    · exact ⟨hn, hqueued, hon⟩
    · exact hstill
  | accept r took =>
    exact hstill.accept c hposs
  | hears i p =>
    simp only [step] at horder ⊢
    split
    · rename_i f hf
      rw [hf] at horder
      obtain ⟨hlink, y, hi, rfl⟩ := heardOn_eq_some hf
      obtain ⟨x, hx, hr⟩ := hon y.fd hlink
      have hheard : SessionDaemon.heardBy y.fd s.d (.packet i { p with inp := s.up }) =
          packetOf (Packet.readFrom s.up p.reads).res := by
        simp only [SessionDaemon.heardBy, hi, if_true]
        rfl
      have hkeeps : smooth → SessionDaemon.KeepsUp y.fd s.d (.packet i { p with inp := s.up }) :=
        fun hs => ⟨⟨trivial, fun _ _ _ _ => trivial⟩, by rw [hheard]; exact hk hs⟩
      exact Records.after c hI (a := .packet i { p with inp := s.up }) hn hx hr trivial hkeeps horder rfl rfl
        (by rw [hheard]; rfl) rfl (List.append_nil _).symm
    · exact hstill
  | daemon a =>
    simp only [step] at horder ⊢
    split
    · exact hstill
    · rename_i hhear
      rw [if_neg hhear] at horder
      have hn' : ((s.d.act a).1.clients.map (·.fd)).Nodup := SessionDaemon.act_nodup hn hposs
      cases hlink : s.link with
      | on f =>
        rw [hlink] at horder
        obtain ⟨x, hx, hr⟩ := hon f hlink
        have hheard : SessionDaemon.heardBy f s.d a = [] := by
          apply SessionDaemon.heardBy_apart
          rintro i p rfl y hy hyf
          simp [hearing, heardOn, hlink, hy, hyf] at hhear
        have hkeeps : smooth → SessionDaemon.KeepsUp f s.d a :=
          fun hs => ⟨hk hs f hlink, by rw [hheard]; simp⟩
        exact Records.after c hI hn hx hr hposs hkeeps horder rfl rfl (by rw [hheard, List.append_nil]; rfl) rfl rfl
      | queued =>
        rw [hlink] at horder
        refine ⟨hn', fun _ fd cred => ?_, fun g hg => by cases hg⟩
        have hold := hqueued hlink fd cred
        -- before the client is accepted, a chunk is an entry in the record it is to have
        rcases a.chunk_cases with hch | ⟨data, took, rounds, rfl⟩
        · have hsame : (s.d.act a).1.scrollback = s.d.scrollback := SessionDaemon.scrollback_of_not_output s.d hch
          simp only [ledger, hsame, hch, Option.getD_none, List.append_nil]
          exact hold
        · have hring : (s.d.act (.output data took rounds)).1.scrollback = s.d.scrollback.append data :=
            SessionDaemon.act_scrollback s.d _
          have hentry := hI (s.ledger ⟨fd, false, 0, 0, cred⟩) (.chunk data false) hold (by simp [Ledger.Allows])
            (fun _ => ⟨rfl, fun h => by cases h⟩) horder
          simpa [Ledger.enter, ledger, hring, SessionDaemon.Act.chunk] using hentry
      | cut => exact ⟨hn', (fun h => by cases h), fun g hg => by cases hg⟩
  | quits => exact ⟨hn, (fun h => by cases h), fun g hg => by cases hg⟩

theorem records_run (I : Ledger → Prop) (smooth : Prop) (hI : Kept c I smooth) {d : SessionDaemon}
    (hn : (d.clients.map (·.fd)).Nodup) (hbegin : ∀ fd cred, I ⟨⟨fd, false, 0, 0, cred⟩, d.scrollback, [], [], []⟩)
    (evs : List Joint) (hposs : Along (step c) Possible (begin c d) evs) (hwhole : Along (step c) (Whole c) (begin c d) evs)
    (hk : smooth → Along (step c) KeepsUp (begin c d) evs) : Records I (run (step c) (begin c d) evs).1 := by
  have hkeeps : Along (step c) (fun s ev => smooth → KeepsUp s ev) (begin c d) evs := by
    by_cases hs : smooth
    · exact (hk hs).mono (fun _ _ h _ => h)
    · exact Machine.along_of_forall evs _ (fun _ _ _ h => absurd h hs)
  refine Along.inv (I := Records I) (fun s ev hs h => records_step c hI hs h.1.1 h.2 h.1.2) ?_
    ((hposs.and (along_in_order c d evs hwhole)).and hkeeps)
  exact ⟨hn, fun _ => hbegin, fun f hf => by cases hf⟩

/-- **The daemon keeps up with its client**: in every conversation, it hears the packets the client sends, in the client's
order; before the Attach its record of the client says detached, and nothing has been sent; and from the Attach on it says
attached, or that a replay is pending. -/
theorem daemon_keeps_up {d : SessionDaemon} {tr : List Effect} (hd : SessionDaemon.Reachable d tr) (evs : List Joint)
    (hposs : Along (step c) Possible (begin c d) evs) (hwhole : Along (step c) (Whole c) (begin c d) evs) :
    let s := (run (step c) (begin c d) evs).1
    s.heard <+: s.seen.filterMap Seen.packet ∧
      (s.link ≠ .cut → s.up = [] → s.heard = s.seen.filterMap Seen.packet) ∧
      ∃ q, (Talk.toAttach (if c.skipRing then 1 else 0)).over c.redrawMethod.toU8 s.heard = some q ∧
        ∀ f, s.link = .on f → ∃ x, clientsAt s.d.clients f = [x] ∧
          (s.heard = [] → x.attached = false ∧ s.down = []) ∧
          (q.isToAttach = false → x.attached = true ∨ 0 < x.replayRemaining) := by
  intro s
  obtain ⟨rest, hsent, hup⟩ := framed_run c d evs hwhole
  obtain ⟨q, hq⟩ := run_in_order c d evs hwhole
  have hrecords := records_run c (Ledger.Agrees c.redrawMethod.toU8 (if c.skipRing then 1 else 0)) False
    (fun r e hr he _ ho => hr.enter he ho) hd.nodup
    (fun fd cred => ⟨scrollbackSize_pos, fun _ => ⟨rfl, rfl, rfl⟩, fun q hq ha => by
      obtain rfl := Option.some.inj hq
      cases ha⟩) evs hposs hwhole (fun h => h.elim)
  refine ⟨⟨rest, hsent.symm⟩, fun hlink hnil => ?_, q, hq, fun f hf => ?_⟩
  · rw [nil_of_nothing_on_way ((hup hlink).symm.trans hnil), List.append_nil] at hsent
    exact hsent.symm
  · obtain ⟨x, hx, hagree⟩ := hrecords.on f hf
    refine ⟨x, hx, fun hnil => ?_, fun ha => ?_⟩
    · obtain ⟨hatt, -, hdown⟩ := hagree.before hnil
      exact ⟨hatt, hdown⟩
    · rcases Nat.eq_zero_or_pos x.replayRemaining with hzero | hpos
      · exact .inl (hagree.since q hq ha hzero)
      · exact .inr hpos

/-! ## A conversation -/

/-- A client attaches, three bytes are put out, and two are typed. -/
def shortTalk : List Joint :=
  let go (a : OpAns) : Joint := .client (.go a)
  let hear : Joint := .hears 0 ⟨[], [.avail 10], [.room 10], .room 100, none⟩
  [.accept (.conn 5 true none) 0] ++ List.replicate 8 (go plainAns) ++ [hear, hear] ++
    [.daemon (.output [1, 2, 3] 3 [⟨.ready [] [5], fun _ => .room 100⟩])] ++
    List.replicate 6 (go { plainAns with ready := .ok (true, false), sock := .avail 10 }) ++
    List.replicate 6 (go { plainAns with ready := .ok (false, true), stdin := .ok [104, 105] }) ++ [hear]

theorem shortTalk_keeps_up :
    let s := (run (step plainClient) (begin plainClient SessionDaemon.fresh) shortTalk).1
    s.heard <+: s.seen.filterMap Seen.packet ∧ s.heard.map (·.msgType) = [1, 4, 0] :=
  ⟨(daemon_keeps_up plainClient SessionDaemon.fresh_reachable shortTalk (by decide +kernel) (by decide +kernel)).1,
    by decide +kernel⟩

end Joined

end Zatch
