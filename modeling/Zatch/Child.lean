import Zatch.ClientSteps
import Zatch.Push
/-!
# Child — what reaches the child of a session (`handle_push`, `handle_winch`, `handle_redraw`, `handle_kill`)

Nothing the daemon does reaches its child unless a packet asks for it: over any run, the sizes and the signals it is given
are those the packets read ask for, in their order, and what is typed at it is, packet by packet, as much of what the packet
types as its write takes (`child_gets_what_is_asked`).
-/
namespace Zatch

open Machine (run)

/-! ## The size of a window -/

/-- `libc::winsize`. -/
structure TtySize where
  row : UInt16
  col : UInt16
  xpixel : UInt16
  ypixel : UInt16
deriving DecidableEq, Repr

def TtySize.winsize (s : TtySize) : Winsize := ⟨s.row.toNat, s.col.toNat, s.xpixel.toNat, s.ypixel.toNat⟩

/-- `to_ne_bytes`, little-endian. -/
def neBytes (x : UInt16) : List Byte := [UInt8.ofNat (x.toNat % 256), UInt8.ofNat (x.toNat / 256)]

/-- `get_winsize_raw` -/
def getWinsizeRaw (s : TtySize) : List Byte := neBytes s.row ++ neBytes s.col ++ neBytes s.xpixel ++ neBytes s.ypixel

theorem neBytes_toNat (x : UInt16) :
    (UInt8.ofNat (x.toNat % 256)).toNat + 256 * (UInt8.ofNat (x.toNat / 256)).toNat = x.toNat := by
  have hlt : x.toNat < 65536 := x.toNat_lt
  rw [UInt8.toNat_ofNat', UInt8.toNat_ofNat', Nat.mod_eq_of_lt (Nat.mod_lt _ (by decide)),
    Nat.mod_eq_of_lt (show x.toNat / 256 < 2 ^ 8 by omega)]
  omega

/-- **The size that is sent is the size that is set.** -/
theorem winsizeFromBytes_raw (s : TtySize) : winsizeFromBytes (getWinsizeRaw s) = s.winsize := by
  simp only [winsizeFromBytes, getWinsizeRaw, neBytes, TtySize.winsize, List.cons_append, List.nil_append,
    List.getD_cons_zero, List.getD_cons_succ, neBytes_toNat]

/-! ## What a packet asks for -/

namespace Packet

/-- The size a packet sets. -/
def sizes (pkt : Packet) : List Winsize :=
  match MsgType.fromU8 pkt.msgType with
  | some .winch | some .redraw => [winsizeFromBytes pkt.data]
  | _ => []

/-- The signal a packet sends. -/
def signals (pkt : Packet) : List Nat :=
  match MsgType.fromU8 pkt.msgType with
  | some .kill => [if pkt.len ≠ 0 then pkt.len.toNat else 15]
  | some .redraw => if pkt.len = RedrawMethod.winch.toU8 then [28] else []
  | _ => []

/-- What a packet types at a terminal with these attributes. -/
def types (pkt : Packet) (term : Option SessionDaemon.Termios) : List Byte :=
  match MsgType.fromU8 pkt.msgType with
  | some .push => pkt.data.take (min pkt.len.toNat pkt.data.length)
  | some .redraw => if pkt.len = RedrawMethod.ctrlL.toU8 ∧ SessionDaemon.isRaw term then [0x0c] else []
  | _ => []

end Packet

namespace Effect

def sizeOf : Effect → List Winsize
  | .ptyWinsize ws => [ws]
  | _ => []

def signalOf : Effect → List Nat
  | .ptyKill sig => [sig]
  | _ => []

def packetOf : Effect → List Packet
  | .read _ (.ok pkt) => [pkt]
  | _ => []

/-- An effect that neither reaches the child nor reads. -/
def aside : Effect → Bool
  | .ptyWrote _ | .ptyWinsize _ | .ptyKill _ | .read _ _ => false
  | _ => true

end Effect

/-- The packets read, in the order they were read. -/
def packetsRead (fx : List Effect) : List Packet := fx.flatMap Effect.packetOf

def sizesSet (fx : List Effect) : List Winsize := fx.flatMap Effect.sizeOf

def signalsSent (fx : List Effect) : List Nat := fx.flatMap Effect.signalOf

/-- What `write(2)` takes of what it is given. -/
def WriteRet.takes (w : WriteRet) (bs : List Byte) : List Byte :=
  match w.ret bs.length with
  | .ok n => bs.take n
  | .error _ => []

theorem WriteRet.takes_prefix (w : WriteRet) (bs : List Byte) : w.takes bs <+: bs := by
  unfold takes
  split
  · exact List.take_prefix _ _
  · exact List.nil_prefix

theorem WriteRet.takes_nil (w : WriteRet) : w.takes [] = [] := List.prefix_nil.1 (w.takes_prefix [])

theorem WriteRet.takes_inFull {w : WriteRet} {bs : List Byte} (h : SessionDaemon.InFull w bs.length) : w.takes bs = bs := by
  obtain ⟨n, rfl, hn⟩ := h
  simp only [takes, ret, Nat.min_eq_right hn, List.take_length]

/-- A packet that is read, with the answers to the calls that its handling makes. -/
structure Heard where
  pkt : Packet
  ans : SessionDaemon.PacketAns

/-- What the packet types at the PTY. -/
def Heard.types (x : Heard) : List Byte := x.pkt.types x.ans.term

/-- What the write to the PTY takes of it. -/
def Heard.typed (x : Heard) : List Byte := x.ans.pty.takes x.types

/-- What was done to the child is what the packets asked for, and of what one types its write takes what it has room for. -/
structure Asked (xs : List Heard) (fx : List Effect) : Prop where
  read : packetsRead fx = xs.map Heard.pkt
  sizes : sizesSet fx = xs.flatMap (·.pkt.sizes)
  signals : signalsSent fx = xs.flatMap (·.pkt.signals)
  typed : ptyTook fx = xs.flatMap Heard.typed

theorem Asked.append {xs xs' : List Heard} {fx fx' : List Effect} (h : Asked xs fx) (h' : Asked xs' fx') :
    Asked (xs ++ xs') (fx ++ fx') := by
  refine ⟨?_, ?_, ?_, ?_⟩
  · rw [packetsRead, List.flatMap_append, List.map_append]
    exact congrArg₂ (· ++ ·) h.read h'.read
  · rw [sizesSet, List.flatMap_append, List.flatMap_append]
    exact congrArg₂ (· ++ ·) h.sizes h'.sizes
  · rw [signalsSent, List.flatMap_append, List.flatMap_append]
    exact congrArg₂ (· ++ ·) h.signals h'.signals
  · rw [ptyTook, List.flatMap_append, List.flatMap_append]
    exact congrArg₂ (· ++ ·) h.typed h'.typed

theorem asked_of_aside {fx : List Effect} (h : ∀ e ∈ fx, e.aside = true) : Asked [] fx := by
  have hnil : ∀ {β : Type} (f : Effect → List β), (∀ e : Effect, e.aside = true → f e = []) → fx.flatMap f = [] :=
    fun f hf => List.flatMap_eq_nil_iff.2 (fun e he => hf e (h e he))
  refine ⟨hnil _ ?_, hnil _ ?_, hnil _ ?_, hnil _ ?_⟩ <;>
  · intro e he
    cases e <;> first | rfl | cases he

namespace SessionDaemon

/-! ## Acts -/

/-- What an act may do, besides what it does to its daemon. -/
def Act.mayDo : Act → Effect → Bool
  | .poll, .chmod _ => true
  | .accept _ _, .accepted _ | .accept _ _, .appLog _ | .accept _ _, .logWrote _ _ | .accept _ _, .closed _ => true
  | .packet _ _, .read _ _ | .packet _ _, .replayed _ _ | .packet _ _, .closed _ => true
  | .packet _ _, e => e.plain
  | .evict, .closed _ => true
  | .drain _ _, .replayed _ _ => true
  | .output _ _ _, .logWrote _ _ | .output _ _ _, .live _ _ | .output _ _ _, .closed _ => true
  | _, _ => false

theorem mem_logData {d : SessionDaemon} {data : List Byte} {took : Nat} {e : Effect} (he : e ∈ (d.logData data took).2) :
    ∃ pos bs, e = .logWrote pos bs := by
  unfold logData at he
  split at he
  · cases he
  · exact ⟨_, _, List.mem_singleton.1 he⟩

/-- **What an act does** is among what it may do. -/
theorem act_mayDo (d : SessionDaemon) (a : Act) : ∀ e ∈ (d.act a).2, a.mayDo e = true := by
  intro e he
  cases a with
  | poll =>
    obtain rfl := List.mem_singleton.1 he
    rfl
  | accept r took =>
    simp only [act, acceptClient] at he
    split at he
    · cases he
    · simp only [logWarn, List.cons_append, List.mem_cons, List.mem_append, List.not_mem_nil, or_false] at he
      rcases he with rfl | rfl | he | rfl
      · rfl
      · rfl
      · obtain ⟨pos, bs, rfl⟩ := mem_logData he
        rfl
      · rfl
    · obtain rfl := List.mem_singleton.1 he
      rfl
  | packet i p =>
    cases hi : d.clients[i]? with
    | none =>
      rw [act_packet_none d p hi] at he
      cases he
    | some c =>
      rcases mem_packet d p hi he with hplain | rfl | rfl | rfl
      · cases e <;> first | rfl | cases hplain
      · rfl
      · rfl
      · rfl
  | evict =>
    simp only [act, evict] at he
    split at he
    · obtain ⟨c, -, rfl⟩ := List.mem_map.1 he
      rfl
    · cases he
  | drain wfds ans =>
    obtain ⟨fd, sent, rfl⟩ := mem_drain he
    rfl
  | output data took rounds =>
    rcases List.mem_append.1 he with he | he
    · obtain ⟨pos, bs, rfl⟩ := mem_logData he
      rfl
    · unfold sendToClients at he
      split at he
      · cases he
      · rcases sendLoop_cases _ _ _ _ e he with ⟨g, bs, rfl⟩ | ⟨g, rfl⟩ <;> rfl

/-- No act but the handling of a packet reads, or reaches the child. -/
theorem aside_act (d : SessionDaemon) {a : Act} (h : ∀ i p, a ≠ .packet i p) : ∀ e ∈ (d.act a).2, e.aside = true := by
  intro e he
  have hmay := act_mayDo d a e he
  cases a with
  | packet i p => exact absurd rfl (h i p)
  | _ => cases e <;> first | rfl | cases hmay

theorem aside_tell (fd : RawFd) : ∀ (ts : List (List Byte)) (ws : List WriteRet), ∀ e ∈ tell fd ts ws, e.aside = true
  | [], _, _, he => by cases he
  | t :: ts, ws, e, he => by
    rcases List.mem_cons.1 he with rfl | he
    · rfl
    · exact aside_tell fd ts _ e he

theorem asked_ptyWrite (bs : List Byte) (w : WriteRet) :
    packetsRead (ptyWrite bs w) = [] ∧ sizesSet (ptyWrite bs w) = [] ∧ signalsSent (ptyWrite bs w) = [] ∧
      ptyTook (ptyWrite bs w) = w.takes bs := by
  simp only [ptyWrite, WriteRet.takes]
  cases w.ret bs.length with
  | ok n => exact ⟨rfl, rfl, rfl, List.append_nil _⟩
  | error e => exact ⟨rfl, rfl, rfl, rfl⟩

/-- **What the handling of one packet does to the child** is what the packet asks for. -/
theorem asked_dispatch (d : SessionDaemon) (i : Nat) (cfd : RawFd) (pkt : Packet) (p : PacketAns) :
    let fx := (d.dispatch i cfd pkt p).fx
    packetsRead fx = [] ∧ sizesSet fx = pkt.sizes ∧ signalsSent fx = pkt.signals ∧ ptyTook fx = p.pty.takes (pkt.types p.term) := by
  have hnone : ∀ fx : List Effect, (∀ e ∈ fx, e.aside = true) →
      packetsRead fx = [] ∧ sizesSet fx = [] ∧ signalsSent fx = [] ∧ ptyTook fx = p.pty.takes [] := by
    intro fx hfx
    obtain ⟨hr, hs, hk, ht⟩ := asked_of_aside hfx
    exact ⟨hr, hs, hk, by rw [ht, WriteRet.takes_nil]; rfl⟩
  have hnil := p.pty.takes_nil.symm
  simp only [dispatch, Packet.sizes, Packet.signals, Packet.types]
  cases MsgType.fromU8 pkt.msgType with
  | none => exact hnone [] (by simp)
  | some t =>
    cases t with
    | push =>
      simp only [handlePush]
      split
      · exact asked_ptyWrite (pkt.data.take (min pkt.len.toNat pkt.data.length)) p.pty
      · -- nothing to be typed, and no write
        rename_i hlen
        have hmin : min pkt.len.toNat pkt.data.length = 0 := by omega
        rw [hmin]
        exact ⟨rfl, rfl, rfl, hnil⟩
    | attach =>
      simp only [handleAttach]
      split
      · exact hnone [] (by simp)
      · exact hnone _ (by simp [Effect.aside])
    | detach => exact hnone [] (by simp)
    | winch => exact ⟨rfl, rfl, rfl, hnil⟩
    | redraw =>
      simp only [handleRedraw]
      by_cases hl : pkt.len = RedrawMethod.ctrlL.toU8
      · have hw : pkt.len ≠ RedrawMethod.winch.toU8 := by
          rw [hl]
          decide
        rw [if_pos hl, if_neg hw]
        by_cases hraw : isRaw p.term = true
        · rw [if_pos hraw, if_pos ⟨hl, hraw⟩]
          obtain ⟨hr, hs, hk, ht⟩ := asked_ptyWrite [0x0c] p.pty
          exact ⟨hr, congrArg (_ :: ·) hs, hk, ht⟩
        · rw [if_neg hraw, if_neg (fun h => hraw h.2)]
          exact ⟨rfl, rfl, rfl, hnil⟩
      · have hnot : ¬ (pkt.len = RedrawMethod.ctrlL.toU8 ∧ isRaw p.term = true) := fun h => hl h.1
        rw [if_neg hl, if_neg hnot]
        split <;> exact ⟨rfl, rfl, rfl, hnil⟩
    | kill => exact ⟨rfl, rfl, rfl, hnil⟩
    | forceDetach => exact hnone [] (by simp)
    | info => exact hnone _ (aside_tell _ _ _)

theorem asked_visit (d : SessionDaemon) (i : Nat) (cfd : RawFd) (p : PacketAns) :
    Asked ((packetsRead (d.visit i cfd p).fx).map (⟨·, p⟩)) (d.visit i cfd p).fx := by
  have hclosed : Asked [] [.closed cfd] := asked_of_aside (by simp [Effect.aside])
  have hread : ∀ e, Asked [] [.read cfd (.error e)] := fun e => ⟨rfl, rfl, rfl, rfl⟩
  unfold visit
  cases (Packet.readFrom p.inp p.reads).res with
  | error e =>
    cases e with
    | wouldBlock => exact hread _
    | eof => exact (hread _).append hclosed
    | io n => exact (hread _).append hclosed
  | ok pkt =>
    obtain ⟨hr, hs, hk, ht⟩ := asked_dispatch d i cfd pkt p
    have hasked : Asked [⟨pkt, p⟩] (.read cfd (.ok pkt) :: (d.dispatch i cfd pkt p).fx) := by
      refine ⟨congrArg (pkt :: ·) hr, ?_, ?_, ?_⟩
      · rw [List.flatMap_singleton]
        exact hs
      · rw [List.flatMap_singleton]
        exact hk
      · rw [List.flatMap_singleton]
        exact ht
    have hpkts : ∀ fx, Asked [⟨pkt, p⟩] fx → Asked ((packetsRead fx).map (⟨·, p⟩)) fx := by
      intro fx h
      rw [h.read]
      exact h
    simp only
    split
    · exact hpkts _ hasked
    · exact hpkts _ (hasked.append hclosed)

/-- The packet that an act reads, with the act's answers. -/
def Act.heard (d : SessionDaemon) : Act → List Heard
  | .packet i p => (packetsRead (d.act (.packet i p)).2).map (⟨·, p⟩)
  | _ => []

/-- The packets that a run reads, each with the answers to its handling. -/
def heard : SessionDaemon → List Act → List Heard
  | _, [] => []
  | d, a :: as => a.heard d ++ heard (d.act a).1 as

theorem asked_act (d : SessionDaemon) (a : Act) : Asked (a.heard d) (d.act a).2 := by
  cases a with
  | packet i p =>
    rw [Act.heard]
    cases hi : d.clients[i]? with
    | none =>
      rw [act_packet_none d p hi]
      exact asked_of_aside (by simp)
    | some c =>
      rw [act_packet d p hi]
      exact asked_visit d i c.fd p
  | _ => exact asked_of_aside (aside_act d (fun _ _ h => by cases h))

theorem asked_run : ∀ (as : List Act) (d : SessionDaemon), Asked (heard d as) (run act d as).2
  | [], _ => asked_of_aside (by simp)
  | a :: as, d => (asked_act d a).append (asked_run as (d.act a).1)

/-- **What the child gets is what is asked for**, over any run of the daemon, whatever packets it reads and in whatever
order its steps come: the window sizes set and the signals sent are those of the packets read, in their order, and a
client's own size arrives as it was; and what is typed at the child is, packet by packet, what its one write takes of what the
packet types, which is all of it when the write has room for it. -/
theorem child_gets_what_is_asked (d : SessionDaemon) (as : List Act) :
    let fx := (run act d as).2
    packetsRead fx = (heard d as).map Heard.pkt ∧ sizesSet fx = (packetsRead fx).flatMap Packet.sizes ∧
      signalsSent fx = (packetsRead fx).flatMap Packet.signals ∧ ptyTook fx = (heard d as).flatMap Heard.typed ∧
      (∀ x ∈ heard d as, x.typed <+: x.types ∧ (InFull x.ans.pty x.types.length → x.typed = x.types)) ∧
      ∀ (len : Byte) (s : TtySize), (⟨MsgType.winch.toU8, len, getWinsizeRaw s, rfl⟩ : Packet).sizes = [s.winsize] ∧
        (⟨MsgType.redraw.toU8, len, getWinsizeRaw s, rfl⟩ : Packet).sizes = [s.winsize] := by
  intro fx
  obtain ⟨hr, hs, hk, ht⟩ := asked_run as d
  refine ⟨hr, ?_, ?_, ht, fun x _ => ⟨WriteRet.takes_prefix _ _, WriteRet.takes_inFull⟩, fun len s => ?_⟩
  · rw [hr, List.flatMap_map]
    exact hs
  · rw [hr, List.flatMap_map]
    exact hk
  · have hsize := winsizeFromBytes_raw s
    constructor
    · simp only [Packet.sizes, MsgType.fromU8_toU8, hsize]
    · simp only [Packet.sizes, MsgType.fromU8_toU8, hsize]

end SessionDaemon

end Zatch
