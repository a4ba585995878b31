import Zatch.Sys
/-!
# Protocol — packets on the wire (`protocol.rs`)

A packet is ten bytes: its type, `len`, and eight bytes of data.  `Packet.readFrom` and `Packet.writeTo` move one
packet over a descriptor in as many calls as the kernel makes of it; `writeBuf` is the best-effort write of a text.
-/
namespace Zatch

def bufsize : Nat := 4096

def scrollbackSize : Nat := 128 * 1024

def packetSize : Nat := 10

inductive MsgType
  | push | attach | detach | winch | redraw | kill | forceDetach | info
deriving DecidableEq, Repr

def MsgType.toU8 : MsgType → Byte
  | .push => 0
  | .attach => 1
  | .detach => 2
  | .winch => 3
  | .redraw => 4
  | .kill => 5
  | .forceDetach => 6
  | .info => 7

def MsgType.fromU8 (v : Byte) : Option MsgType :=
  match v.toNat with
  | 0 => some .push
  | 1 => some .attach
  | 2 => some .detach
  | 3 => some .winch
  | 4 => some .redraw
  | 5 => some .kill
  | 6 => some .forceDetach
  | 7 => some .info
  | _ => none

inductive RedrawMethod
  | unspec | none | ctrlL | winch
deriving DecidableEq, Repr

def RedrawMethod.toU8 : RedrawMethod → Byte
  | .unspec => 0
  | .none => 1
  | .ctrlL => 2
  | .winch => 3

structure Packet where
  msgType : Byte
  len : Byte
  data : List Byte
  data_length : data.length = 8
deriving DecidableEq, Repr

inductive ProtocolError
  | eof
  | wouldBlock
  | io (errno : Nat)
deriving DecidableEq, Repr

namespace Packet

/-- `Packet::encode`: a packet with a type and a `len`, its data zeroed. -/
def encode (t : MsgType) (len : Byte) : Packet := ⟨t.toU8, len, List.replicate 8 0, rfl⟩

def new (t : MsgType) : Packet := encode t 0

def bytes (p : Packet) : List Byte := p.msgType :: p.len :: p.data

/-- The zeroed packet with its first bytes overwritten. -/
def ofBytes (bs : List Byte) : Packet :=
  ⟨bs.getD 0 0, bs.getD 1 0, (bs.drop 2 ++ List.replicate 8 0).take 8, by simp⟩

@[simp] theorem length_bytes (p : Packet) : p.bytes.length = packetSize := by
  simp [bytes, p.data_length, packetSize]

@[simp] theorem ofBytes_bytes (p : Packet) : ofBytes p.bytes = p := by
  obtain ⟨t, len, data, hd⟩ := p
  have : (data ++ List.replicate 8 0).take 8 = data := by rw [← hd, List.take_left]
  simp only [ofBytes, bytes, List.getD_cons_zero, List.getD_cons_succ, List.drop_succ_cons, List.drop_zero, this]

theorem bytes_ofBytes {bs : List Byte} (h : bs.length = packetSize) : (ofBytes bs).bytes = bs := by
  match bs, h with
  | t :: len :: data, h =>
    have hd : data.length = 8 := by simpa [packetSize] using h
    have : (data ++ List.replicate 8 0).take 8 = data := by rw [← hd, List.take_left]
    simp only [ofBytes, bytes, List.getD_cons_zero, List.getD_cons_succ, List.drop_succ_cons, List.drop_zero, this]

/-- What one `read_from` left: its result, the bytes still to be read and the answers still to come. -/
structure ReadOut where
  res : Except ProtocolError Packet
  inp : List Byte
  rest : List ReadRet

/-- The loop of `read_from`: `got` is what it has put into the packet so far (`off` bytes). -/
def readLoop (got inp : List Byte) : List ReadRet → ReadOut
  | [] =>
    if got.length < packetSize then ⟨.error .wouldBlock, inp, []⟩ else ⟨.ok (ofBytes got), inp, []⟩
  | r :: rs =>
    if got.length < packetSize then
      match r.ret inp (packetSize - got.length) with
      | .ok [] => ⟨.error .eof, inp, rs⟩
      | .ok (b :: bs) => readLoop (got ++ b :: bs) (inp.drop (bs.length + 1)) rs
      | .error .eintr => readLoop got inp rs
      | .error .eagain => ⟨.error .wouldBlock, inp, rs⟩
      | .error (.other e) => ⟨.error (.io e), inp, rs⟩
    else ⟨.ok (ofBytes got), inp, r :: rs⟩

def readFrom (inp : List Byte) (rs : List ReadRet) : ReadOut := readLoop [] inp rs

theorem readLoop_full {got : List Byte} (h : got.length = packetSize) (inp : List Byte) (rs : List ReadRet) :
    readLoop got inp rs = ⟨.ok (ofBytes got), inp, rs⟩ := by
  cases rs with
  | nil => rw [readLoop, if_neg (by omega)]
  | cons r rs => rw [readLoop, if_neg (by omega)]

theorem readFrom_whole (p : Packet) (inp : List Byte) (rs : List ReadRet) :
    readFrom (p.bytes ++ inp) (.avail packetSize :: rs) = ⟨.ok p, inp, rs⟩ := by
  have hlen := p.length_bytes
  have hret : (ReadRet.avail packetSize).ret (p.bytes ++ inp) (packetSize - 0) = .ok p.bytes := by
    simp only [ReadRet.ret, Nat.sub_zero, Nat.min_self, List.length_append, hlen]
    rw [if_neg (by simp [packetSize]), ← hlen, List.take_left]
  have hb : p.bytes = p.msgType :: (p.len :: p.data) := rfl
  have hdrop : (p.bytes ++ inp).drop ((p.len :: p.data).length + 1) = inp := by
    rw [← List.length_cons (a := p.msgType), ← hb, List.drop_left]
  rw [readFrom, readLoop, if_pos (by simp [packetSize]), List.length_nil, hret, hb]
  simp only [List.nil_append]
  rw [← hb, hdrop, readLoop_full hlen, ofBytes_bytes]

/-- What one `write_to` left: its result, the bytes the descriptor took and the answers still to come. -/
structure WriteOut where
  res : Except ProtocolError Unit
  sent : List Byte
  rest : List WriteRet

/-- The loop of `write_to`: `left` is what it still has to write. -/
def writeLoop (left : List Byte) : List WriteRet → WriteOut
  | [] => if left = [] then ⟨.ok (), [], []⟩ else ⟨.error .wouldBlock, [], []⟩
  | w :: ws =>
    if left = [] then ⟨.ok (), [], w :: ws⟩
    else
      match w.ret left.length with
      | .ok 0 => ⟨.error .eof, [], ws⟩
      | .ok (n + 1) =>
        let o := writeLoop (left.drop (n + 1)) ws
        { o with sent := left.take (n + 1) ++ o.sent }
      | .error .eintr => writeLoop left ws
      | .error .eagain => ⟨.error .wouldBlock, [], ws⟩
      | .error (.other e) => ⟨.error (.io e), [], ws⟩

def writeTo (p : Packet) (ws : List WriteRet) : WriteOut := writeLoop p.bytes ws

theorem writeLoop_ok : ∀ (ws : List WriteRet) (left : List Byte), (writeLoop left ws).res = .ok () →
    (writeLoop left ws).sent = left
  | [], left, h => by
    rw [writeLoop] at h ⊢
    split at h
    · rename_i hl
      rw [if_pos hl, hl]
    · cases h
  | w :: ws, left, h => by
    rw [writeLoop] at h ⊢
    split at h
    · rename_i hl
      rw [if_pos hl, hl]
    · rename_i hl
      rw [if_neg hl]
      cases hw : w.ret left.length with
      | ok n =>
        cases n with
        | zero => rw [hw] at h; cases h
        | succ n =>
          rw [hw] at h
          simp only at h ⊢
          rw [writeLoop_ok ws _ h, List.take_append_drop]
      | error e =>
        rw [hw] at h
        cases e with
        | eintr => exact writeLoop_ok ws left h
        | eagain => cases h
        | other k => cases h

end Packet

/-- `write_buf`: what the descriptor took of `buf`, and the answers still to come. -/
def writeBuf (buf : List Byte) : List WriteRet → List Byte × List WriteRet
  | [] => ([], [])
  | w :: ws =>
    if buf = [] then ([], w :: ws)
    else
      match w.ret buf.length with
      | .ok n =>
        let o := writeBuf (buf.drop n) ws
        (buf.take n ++ o.1, o.2)
      | .error .eintr => writeBuf buf ws
      | .error _ => ([], ws)

theorem MsgType.fromU8_toU8 (t : MsgType) : fromU8 t.toU8 = some t := by cases t <;> rfl

end Zatch
