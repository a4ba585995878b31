import Zatch.AttachTalk
import Zatch.Replay
/-!
# Ledger — one client as its session has it

What the daemon knows of one client and has exchanged with it, and the entries that can be made: a packet is read from the
client, its replay is drained, a chunk of output is read.  When the packets come in the order a client sends them, the client
is attached from its Attach on, but for a replay (`Agrees`); and when no chunk comes while a replay is pending and every chunk
is taken, what has been sent and is pending is the session's output without a gap (`Continues`).
-/
namespace Zatch

/-- Where packets lead, when they come in order. -/
def Talk.over (method : Byte) (q : Talk) (pkts : List Packet) : Option Talk :=
  pkts.foldlM (fun q pkt => Talk.next method pkt q) q

theorem Talk.over_append (method : Byte) (q : Talk) (pkts pkts' : List Packet) :
    q.over method (pkts ++ pkts') = (q.over method pkts).bind (fun q => q.over method pkts') := by
  unfold Talk.over
  rw [List.foldlM_append]
  rfl

def Talk.isToAttach : Talk → Bool
  | .toAttach _ => true
  | _ => false

structure Ledger where
  client : Client
  ring : Ring
  /-- the packets read from the client -/
  heard : List Packet
  /-- what has been written to it -/
  down : List Byte
  /-- what has been read from the PTY -/
  output : List Byte

inductive Entry
  | still
  | packet (p : SessionDaemon.PacketAns) (pkt : Packet)
  | drained (wfds : FdSet) (ans : RawFd → List WriteRet)
  /-- a chunk of output, which the client takes or is passed over with -/
  | chunk (data : List Byte) (taken : Bool)

namespace Ledger

/-- What the client has still to be sent of its replay. -/
def pending (r : Ledger) : List Byte := Cyclic.window r.ring.buf r.client.replayHead r.client.replayRemaining

def enter (r : Ledger) : Entry → Ledger
  | .still => r
  | .packet p pkt =>
    { r with
      client := (r.client.next r.ring p).getD r.client
      heard := r.heard ++ [pkt]
      down := r.down ++ Client.replayOn r.ring p }
  | .drained wfds ans =>
    { r with
      client := (SessionDaemon.drainClient r.ring.toScrollback wfds ans r.client).1
      down := r.down ++ replayedTo r.client.fd (SessionDaemon.drainClient r.ring.toScrollback wfds ans r.client).2 }
  | .chunk data taken =>
    { r with
      ring := r.ring.append data
      down := r.down ++ if taken then data else []
      output := r.output ++ data }

/-- The entries a daemon can make. -/
def Allows (r : Ledger) : Entry → Prop
  | .packet p pkt => p.res = .ok pkt
  | .chunk _ taken => taken = true → r.client.attached = true
  | _ => True

/-- The entries of a client that neither detaches nor falls behind. -/
def Smooth (r : Ledger) : Entry → Prop
  | .packet _ pkt => pkt.msgType ≠ MsgType.detach.toU8
  | .chunk _ taken => r.client.replayRemaining = 0 ∧ (r.client.attached = true → taken = true)
  | _ => True

/-! ## The order of the packets -/

/-- What the next packet is, and what it makes of the client. -/
theorem next_of_talk {method : Byte} {q q' : Talk} {r : Ring} {c : Client} {p : SessionDaemon.PacketAns} {pkt : Packet}
    (hp : p.res = .ok pkt) (hq : Talk.next method pkt q = some q') :
    (∃ len, q = .toAttach len ∧ q' = .toRedraw ∧ pkt.len = len ∧ p.Brings .attach pkt) ∨
    (q.isToAttach = false ∧ q'.isToAttach = false ∧ c.next r p = some c ∧ Client.replayOn r p = []) ∨
    (q = .attached ∧ q' = .toAttach 0 ∧ pkt.msgType = MsgType.detach.toU8 ∧ Client.replayOn r p = []) := by
  have htype : ∀ t : MsgType, pkt.msgType = t.toU8 → MsgType.fromU8 pkt.msgType = some t := by
    intro t ht
    rw [ht, MsgType.fromU8_toU8]
  have hsame : ∀ t : MsgType, pkt.msgType = t.toU8 → t = .push ∨ t = .winch ∨ t = .redraw →
      c.next r p = some c ∧ Client.replayOn r p = [] := by
    intro t ht hcases
    simp only [Client.next, Client.replayOn, hp, htype t ht]
    rcases hcases with rfl | rfl | rfl <;> simp
  cases q with
  | toAttach len =>
    simp only [Talk.next] at hq
    split at hq
    · rename_i h
      obtain rfl := Option.some.inj hq
      exact .inl ⟨len, rfl, rfl, h.2, hp, htype _ h.1⟩
    · cases hq
  | toRedraw =>
    simp only [Talk.next] at hq
    split at hq
    · rename_i h
      obtain rfl := Option.some.inj hq
      obtain ⟨hn, hr⟩ := hsame .redraw h.1 (by simp)
      exact .inr (.inl ⟨rfl, rfl, hn, hr⟩)
    · cases hq
  | attached =>
    simp only [Talk.next] at hq
    split at hq
    · rename_i h
      obtain rfl := Option.some.inj hq
      obtain ⟨hn, hr⟩ := h.elim (fun h => hsame .push h (by simp)) (fun h => hsame .winch h (by simp))
      exact .inr (.inl ⟨rfl, rfl, hn, hr⟩)
    · split at hq
      · rename_i h
        obtain rfl := Option.some.inj hq
        refine .inr (.inr ⟨rfl, rfl, h, ?_⟩)
        simp only [Client.replayOn, hp, htype .detach h]
        rfl
      · cases hq

/-! ## What is recorded of a client -/

/-- The record agrees with what the client has said. -/
structure Agrees (method len : Byte) (r : Ledger) : Prop where
  cursor : r.client.replayHead < scrollbackSize
  before : r.heard = [] → r.client.attached = false ∧ r.client.replayRemaining = 0 ∧ r.down = []
  since : ∀ q, (Talk.toAttach len).over method r.heard = some q → q.isToAttach = false → r.client.replayRemaining = 0 →
    r.client.attached = true

theorem next_cursor_lt {r : Ring} {p : SessionDaemon.PacketAns} {c c' : Client} (hc : c.replayHead < scrollbackSize)
    (hn : c.next r p = some c') : c'.replayHead < scrollbackSize := by
  rcases Client.next_cursor hn with ⟨hhead, -⟩ | ⟨hhead, -⟩
  · rw [hhead]
    exact hc
  · rw [hhead, Client.firstDrain, (ReplayState.drain_spec r p.writes ⟨r.head, r.len⟩ r.head_lt).2.2.1]
    exact Nat.mod_lt _ scrollbackSize_pos

theorem drainClient_cursor_lt (r : Ring) (wfds : FdSet) (ans : RawFd → List WriteRet) {c : Client}
    (hc : c.replayHead < scrollbackSize) :
    (SessionDaemon.drainClient r.toScrollback wfds ans c).1.replayHead < scrollbackSize := by
  unfold SessionDaemon.drainClient
  split
  · simp only
    rw [(ReplayState.drain_spec r (ans c.fd) ⟨c.replayHead, c.replayRemaining⟩ hc).2.2.1]
    exact Nat.mod_lt _ scrollbackSize_pos
  · exact hc

/-- After the Attach the client is attached, or its replay is pending. -/
theorem attached_of_attach {r : Ring} {c : Client} {p : SessionDaemon.PacketAns} {pkt : Packet} (hp : p.Brings .attach pkt)
    (h : ((c.next r p).getD c).replayRemaining = 0) : ((c.next r p).getD c).attached = true := by
  rw [Client.next_attach hp, Option.getD_some] at h ⊢
  split at h
  · rename_i hat
    rw [if_pos hat]
  · rename_i hat
    rw [if_neg hat]
    exact c.drained_attached r.head_lt h

/-- **An entry keeps the agreement**, while the packets come in order. -/
theorem Agrees.enter {method len : Byte} {r : Ledger} (h : Agrees method len r) {e : Entry} (he : r.Allows e)
    (horder : ∃ q, (Talk.toAttach len).over method (r.enter e).heard = some q) : Agrees method len (r.enter e) := by
  obtain ⟨hcur, hbefore, hsince⟩ := h
  cases e with
  | still => exact ⟨hcur, hbefore, hsince⟩
  | packet p pkt =>
    obtain ⟨q', hq'⟩ := horder
    simp only [Ledger.enter] at hq' ⊢
    have hsplit := Talk.over_append method (.toAttach len) r.heard [pkt]
    rw [hq'] at hsplit
    obtain ⟨q, hq, hnext⟩ := Option.bind_eq_some_iff.1 hsplit.symm
    have hnext' : Talk.next method pkt q = some q' := by simpa [Talk.over] using hnext
    refine ⟨?_, fun hnil => absurd hnil (by simp), fun q'' hq'' hto hzero => ?_⟩
    · cases hn : r.client.next r.ring p with
      | some c' => exact next_cursor_lt hcur hn
      | none => exact hcur
    · obtain rfl : q'' = q' := Option.some.inj (hq''.symm.trans hq')
      rcases next_of_talk (r := r.ring) (c := r.client) he hnext' with ⟨l, -, -, -, hp⟩ | ⟨hqa, -, hn, -⟩ | ⟨-, rfl, -⟩
      · exact attached_of_attach hp hzero
      · simp only [hn, Option.getD_some] at hzero ⊢
        exact hsince q hq hqa hzero
      · cases hto
  | drained wfds ans =>
    obtain ⟨-, hatt⟩ := SessionDaemon.drainClient_spec r.ring wfds ans hcur
    refine ⟨drainClient_cursor_lt r.ring wfds ans hcur, fun hnil => ?_, fun q hq hto hzero => ?_⟩
    · obtain ⟨ha, hrem, hdown⟩ := hbefore hnil
      simp only [Ledger.enter, SessionDaemon.drainClient_of_done _ _ _ hrem]
      exact ⟨ha, hrem, by rw [hdown]; rfl⟩
    · exact hatt (hsince q hq hto) hzero
  | chunk data taken =>
    refine ⟨hcur, fun hnil => ?_, hsince⟩
    obtain ⟨ha, hrem, hdown⟩ := hbefore hnil
    have hno : taken = false := by
      cases taken with
      | false => rfl
      | true => rw [he rfl] at ha; cases ha
    simp only [Ledger.enter, hno]
    exact ⟨ha, hrem, by rw [hdown]; rfl⟩

/-! ## What is sent to a client -/

/-- What the client has been sent and is to be sent of its replay is the session's output: at the Attach the end of what there
was, and all there is since.  `base` is what there was before. -/
structure Continues (method : Byte) (base : List Byte) (r : Ledger) : Prop where
  order : ∃ q, (Talk.toAttach 0).over method r.heard = some q ∧ (r.heard ≠ [] → q.isToAttach = false)
  before : r.heard = [] → r.ring.contents = (base ++ r.output).rtake scrollbackSize
  since : r.heard ≠ [] → ∃ o o', r.output = o ++ o' ∧ r.down ++ r.pending = (base ++ o).rtake scrollbackSize ++ o'

theorem pending_of_zero {r : Ledger} (h : r.client.replayRemaining = 0) : r.pending = [] := by
  rw [pending, h, Cyclic.window_zero]

/-- **An Attach answered** sends the end of the output, or leaves it pending. -/
theorem replayOn_append_pending {r : Ledger} {p : SessionDaemon.PacketAns} {pkt : Packet} (hp : p.Brings .attach pkt)
    (hlen : pkt.len = 0) (hrem : r.client.replayRemaining = 0) (hdown : r.down = []) :
    (r.enter (.packet p pkt)).down ++ (r.enter (.packet p pkt)).pending = r.ring.contents := by
  simp only [enter, pending, hdown, List.nil_append]
  rw [Client.next_attach hp, Client.replayOn_attach hp, Option.getD_some]
  cases hat : Client.atOnce r.ring pkt with
  | true =>
    have hzero : r.ring.len = 0 := by
      simpa [Client.atOnce, hlen] using hat
    have hnil : r.ring.contents = [] := List.length_eq_zero_iff.1 (by rw [Ring.length_contents, hzero])
    simp only [if_true, hrem, Cyclic.window_zero, hnil, List.append_nil]
  | false =>
    simp only [Bool.false_eq_true, if_false, Client.drained_replayHead, Client.drained_replayRemaining]
    exact ReplayState.drain_window r.ring p.writes ⟨r.ring.head, r.ring.len⟩ r.ring.head_lt

/-- **An entry of a client that keeps up** leaves no gap. -/
theorem Continues.enter {method : Byte} {base : List Byte} {r : Ledger} (hagree : Agrees method 0 r)
    (h : Continues method base r) {e : Entry} (he : r.Allows e) (hsmooth : r.Smooth e)
    (horder : ∃ q, (Talk.toAttach 0).over method (r.enter e).heard = some q) : Continues method base (r.enter e) := by
  obtain ⟨⟨q, hq, hqa⟩, hbefore, hsince⟩ := h
  cases e with
  | still => exact ⟨⟨q, hq, hqa⟩, hbefore, hsince⟩
  | packet p pkt =>
    obtain ⟨q', hq'⟩ := horder
    have hsplit := Talk.over_append method (.toAttach 0) r.heard [pkt]
    rw [show (Talk.toAttach 0).over method (r.heard ++ [pkt]) = some q' from hq', hq] at hsplit
    have hnext : Talk.next method pkt q = some q' := by simpa [Talk.over] using hsplit.symm
    rcases next_of_talk (r := r.ring) (c := r.client) he hnext with
      ⟨l, rfl, rfl, hlen, hp⟩ | ⟨hqf, hqf', hn, hr⟩ | ⟨-, -, hdet, -⟩
    · -- the Attach: nothing has been heard before it
      have hnil : r.heard = [] := by
        by_contra hne
        cases hqa hne
      obtain rfl : 0 = l := by
        rw [hnil] at hq
        exact Talk.toAttach.inj (Option.some.inj hq)
      obtain ⟨-, hrem, hdown⟩ := hagree.before hnil
      refine ⟨⟨_, hq', fun _ => rfl⟩, fun hnil' => absurd hnil' (by simp [Ledger.enter]), fun _ => ⟨r.output, [], ?_, ?_⟩⟩
      · exact (List.append_nil _).symm
      · rw [replayOn_append_pending hp hlen hrem hdown, hbefore hnil, List.append_nil]
    · have hne : r.heard ≠ [] := by
        intro hnil
        rw [hnil] at hq
        obtain rfl := Option.some.inj hq
        cases hqf
      refine ⟨⟨_, hq', fun _ => hqf'⟩, fun hnil' => absurd hnil' (by simp [Ledger.enter]), fun _ => ?_⟩
      obtain ⟨o, o', hout, hsent⟩ := hsince hne
      refine ⟨o, o', hout, ?_⟩
      simp only [Ledger.enter, pending, hn, hr, Option.getD_some, List.append_nil]
      exact hsent
    · exact absurd hdet hsmooth
  | drained wfds ans =>
    refine ⟨⟨q, hq, hqa⟩, hbefore, fun hne => ?_⟩
    obtain ⟨o, o', hout, hsent⟩ := hsince hne
    refine ⟨o, o', hout, ?_⟩
    obtain ⟨hwindow, -⟩ := SessionDaemon.drainClient_spec r.ring wfds ans hagree.cursor
    simp only [Ledger.enter, pending, List.append_assoc, hwindow]
    exact hsent
  | chunk data taken =>
    obtain ⟨hrem, htaken⟩ := hsmooth
    refine ⟨⟨q, hq, hqa⟩, fun hnil => ?_, fun hne => ?_⟩
    · simp only [Ledger.enter]
      rw [Ring.contents_append, hbefore hnil, Cyclic.rtake_rtake_append, List.append_assoc]
    · obtain ⟨o, o', hout, hsent⟩ := hsince hne
      rw [pending_of_zero hrem, List.append_nil] at hsent
      have hall : taken = true := htaken (hagree.since q hq (hqa hne) hrem)
      refine ⟨o, o' ++ data, ?_, ?_⟩
      · simp only [Ledger.enter, hout, List.append_assoc]
      · rw [pending_of_zero (r := r.enter (.chunk data taken)) hrem, List.append_nil]
        simp only [Ledger.enter, hall, if_true, hsent, List.append_assoc]

end Ledger

end Zatch
