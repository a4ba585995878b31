import Zatch.Protocol
/-!
# Framing — packets read from a stream in pieces

`read_from` takes the pieces of one packet as they come, but what it has taken when it gives up with `WouldBlock` is
gone.  Successive calls cut a stream into its packets exactly when no call gives up in the middle of one
(`readCalls_exact_iff`); in whatever pieces packets are written and read, they come out as they went in
(`roundtrip_in_pieces`).
-/
namespace Zatch

/-- An answer of a socket that is slow but sound: bytes, `EAGAIN` or `EINTR`. -/
def ReadRet.Delivers : ReadRet → Prop
  | .avail _ => True
  | .closed => False
  | .fail .eintr => True
  | .fail .eagain => True
  | .fail (.other _) => False

theorem ReadRet.ret_delivers {r : ReadRet} (h : r.Delivers) (inp : List Byte) (count : Nat) (hc : 0 < count) :
    (∃ b bs, r.ret inp count = .ok (b :: bs)) ∨ r.ret inp count = .error .eagain ∨ r.ret inp count = .error .eintr := by
  cases r with
  | avail n =>
    simp only [ReadRet.ret]
    by_cases hzero : min n inp.length = 0
    · exact .inr (.inl (if_pos hzero))
    · rw [if_neg hzero]
      have hpos : 0 < (inp.take (min n count)).length := by rw [List.length_take]; omega
      obtain ⟨b, bs, hb⟩ := List.exists_cons_of_ne_nil (List.length_pos_iff.1 hpos)
      exact .inl ⟨b, bs, by rw [hb]⟩
  | closed => exact h.elim
  | fail e =>
    cases e with
    | eintr => exact .inr (.inr rfl)
    | eagain => exact .inr (.inl rfl)
    | other k => exact h.elim

namespace Packet

/-- One call is not broken off: no read is answered with `EAGAIN` when some but not all bytes of the packet are there. -/
def Unbroken (off : Nat) (inp : List Byte) : List ReadRet → Prop
  | [] => off = 0 ∨ packetSize ≤ off
  | r :: rs =>
    packetSize ≤ off ∨
    match r.ret inp (packetSize - off) with
    | .ok bs => Unbroken (off + bs.length) (inp.drop bs.length) rs
    | .error .eagain => off = 0
    | .error _ => Unbroken off inp rs

instance decidableUnbroken : ∀ (off : Nat) (inp : List Byte) (rs : List ReadRet), Decidable (Unbroken off inp rs)
  | off, _, [] => inferInstanceAs (Decidable (off = 0 ∨ packetSize ≤ off))
  | off, inp, r :: rs =>
    have : Decidable (match r.ret inp (packetSize - off) with
        | .ok bs => Unbroken (off + bs.length) (inp.drop bs.length) rs
        | .error .eagain => off = 0
        | .error _ => Unbroken off inp rs) :=
      match r.ret inp (packetSize - off) with
      | .ok bs => decidableUnbroken (off + bs.length) (inp.drop bs.length) rs
      | .error .eagain => inferInstanceAs (Decidable (off = 0))
      | .error .eintr | .error (.other _) => decidableUnbroken off inp rs
    inferInstanceAs (Decidable (packetSize ≤ off ∨ _))

/-- **One call of `read_from`** on a sound socket takes the bytes of a packet, or some of them and gives up. -/
theorem readLoop_spec : ∀ (rs : List ReadRet) (got inp : List Byte), (∀ r ∈ rs, r.Delivers) → got.length ≤ packetSize →
    ∃ taken, inp = taken ++ (readLoop got inp rs).inp ∧
      (((readLoop got inp rs).res = .ok (ofBytes (got ++ taken)) ∧ (got ++ taken).length = packetSize ∧
          Unbroken got.length inp rs) ∨
        ((readLoop got inp rs).res = .error .wouldBlock ∧ (got ++ taken).length < packetSize ∧
          (Unbroken got.length inp rs ↔ (got ++ taken).length = 0)))
  | [], got, inp, _, hle => by
    refine ⟨[], ?_⟩
    rw [readLoop, Unbroken, List.append_nil]
    split
    · exact ⟨rfl, .inr ⟨rfl, by omega, by omega⟩⟩
    · exact ⟨rfl, .inl ⟨rfl, by omega, by omega⟩⟩
  | r :: rs, got, inp, hd, hle => by
    have hd' : ∀ r ∈ rs, r.Delivers := fun r' hr' => hd r' (List.mem_cons_of_mem _ hr')
    rw [readLoop, Unbroken]
    by_cases hlt : got.length < packetSize
    · rw [if_pos hlt, or_iff_right (by omega)]
      rcases ReadRet.ret_delivers (hd r List.mem_cons_self) inp (packetSize - got.length) (by omega) with
        ⟨b, bs, hr⟩ | hr | hr
      · obtain ⟨hlen, hinp⟩ := ReadRet.ret_prefix hr
        rw [List.length_cons] at hlen hinp
        rw [hr]
        simp only [List.length_cons]
        obtain ⟨taken, h1, h2⟩ := readLoop_spec rs (got ++ b :: bs) (inp.drop (bs.length + 1)) hd'
          (by rw [List.length_append, List.length_cons]; omega)
        refine ⟨b :: bs ++ taken, ?_, ?_⟩
        · rw [List.append_assoc, ← h1]
          exact hinp
        · rw [← List.append_assoc]
          have hgot : (got ++ b :: bs).length = got.length + (bs.length + 1) := by rw [List.length_append, List.length_cons]
          rw [hgot] at h2
          exact h2
      · rw [hr]
        exact ⟨[], rfl, .inr ⟨rfl, by rw [List.append_nil]; exact hlt, by rw [List.append_nil]⟩⟩
      · rw [hr]
        exact readLoop_spec rs got inp hd' hle
    · rw [if_neg hlt]
      exact ⟨[], rfl, .inl ⟨by rw [List.append_nil], by rw [List.append_nil]; omega, .inl (by omega)⟩⟩

/-- Successive calls of `read_from` on one connection, each with the answers to its reads: the packets returned, up to
the call that ends the connection, and what is still unread. -/
def readCalls : List (List ReadRet) → List Byte → List Packet × List Byte
  | [], inp => ([], inp)
  | rs :: calls, inp =>
    let o := readFrom inp rs
    match o.res with
    | .ok p => (p :: (readCalls calls o.inp).1, (readCalls calls o.inp).2)
    | .error .wouldBlock => readCalls calls o.inp
    | .error _ => ([], o.inp)

def AllUnbroken : List (List ReadRet) → List Byte → Prop
  | [], _ => True
  | rs :: calls, inp => Unbroken 0 inp rs ∧ AllUnbroken calls (readFrom inp rs).inp

instance decidableAllUnbroken : ∀ (calls : List (List ReadRet)) (inp : List Byte), Decidable (AllUnbroken calls inp)
  | [], _ => isTrue trivial
  | rs :: calls, inp =>
    have := decidableAllUnbroken calls (readFrom inp rs).inp
    inferInstanceAs (Decidable (Unbroken 0 inp rs ∧ _))

/-- **What successive calls lose**: the bytes of the packets they were broken off in. -/
theorem readCalls_lost : ∀ (calls : List (List ReadRet)) (inp : List Byte), (∀ rs ∈ calls, ∀ r ∈ rs, r.Delivers) →
    ∃ lost, inp.length = packetSize * (readCalls calls inp).1.length + lost + (readCalls calls inp).2.length ∧
      (AllUnbroken calls inp ↔ lost = 0) ∧
      (lost = 0 → inp = (readCalls calls inp).1.flatMap bytes ++ (readCalls calls inp).2)
  | [], inp, _ => ⟨0, by simp [readCalls], by simp [AllUnbroken], by simp [readCalls]⟩
  | rs :: calls, inp, hd => by
    obtain ⟨taken, hinp, hcall⟩ := readLoop_spec rs [] inp (hd rs List.mem_cons_self) (Nat.zero_le _)
    have hread : readLoop [] inp rs = readFrom inp rs := rfl
    rw [hread, List.nil_append] at hcall
    rw [hread] at hinp
    obtain ⟨lost, hlen, hiff, hzero⟩ := readCalls_lost calls (readFrom inp rs).inp
      (fun rs' hrs' => hd rs' (List.mem_cons_of_mem _ hrs'))
    have htotal : inp.length = taken.length + (readFrom inp rs).inp.length := by
      conv => lhs; rw [hinp]
      exact List.length_append
    rcases hcall with ⟨hres, htaken, hunb⟩ | ⟨hres, -, hunb⟩
    · refine ⟨lost, ?_, ?_, fun h => ?_⟩
      · simp only [readCalls, hres, List.length_cons]
        rw [Nat.mul_add]
        omega
      · rw [AllUnbroken, ← hiff]
        exact and_iff_right hunb
      · simp only [readCalls, hres, List.flatMap_cons]
        rw [bytes_ofBytes htaken, List.append_assoc, ← hzero h]
        exact hinp
    · refine ⟨taken.length + lost, ?_, ?_, fun h => ?_⟩
      · simp only [readCalls, hres]
        omega
      · have hunb' : Unbroken 0 inp rs ↔ taken.length = 0 := hunb
        rw [AllUnbroken, hiff, hunb']
        omega
      · simp only [readCalls, hres]
        have hnil : taken = [] := List.length_eq_zero_iff.1 (by omega)
        rw [hnil, List.nil_append] at hinp
        conv => lhs; rw [hinp]
        exact hzero (by omega)

theorem cut_unique : ∀ (qs ps : List Packet) (left : List Byte), ps.flatMap bytes = qs.flatMap bytes ++ left →
    ∃ rest, ps = qs ++ rest ∧ left = rest.flatMap bytes
  | [], ps, _, h => ⟨ps, rfl, h.symm⟩
  | _ :: _, [], _, h => by
    have := congrArg List.length h
    rw [List.flatMap_cons, List.append_assoc, List.length_append, length_bytes] at this
    exact absurd this (by simp [packetSize]; omega)
  | q :: qs, p :: ps, left, h => by
    rw [List.flatMap_cons, List.flatMap_cons, List.append_assoc] at h
    obtain ⟨hpq, htail⟩ := List.append_inj h (by rw [length_bytes, length_bytes])
    obtain rfl : p = q := by rw [← ofBytes_bytes p, hpq, ofBytes_bytes]
    obtain ⟨rest, hps, hleft⟩ := cut_unique qs ps left htail
    exact ⟨rest, by rw [hps]; rfl, hleft⟩

theorem length_flatMap_bytes (ps : List Packet) : (ps.flatMap bytes).length = packetSize * ps.length := by
  induction ps with
  | nil => rfl
  | cons p ps ih => rw [List.flatMap_cons, List.length_append, length_bytes, ih, List.length_cons, Nat.mul_add]; omega

/-- **Successive calls of `read_from` on a stream of packets**, on a socket that delivers it in any pieces, return its
packets one after the other, and leave the others unread, exactly when no call is broken off in the middle of one. -/
theorem readCalls_exact_iff (ps : List Packet) {calls : List (List ReadRet)} (hd : ∀ rs ∈ calls, ∀ r ∈ rs, r.Delivers) :
    (∃ rest, ps = (readCalls calls (ps.flatMap bytes)).1 ++ rest ∧
      (readCalls calls (ps.flatMap bytes)).2 = rest.flatMap bytes) ↔ AllUnbroken calls (ps.flatMap bytes) := by
  obtain ⟨lost, hlen, hiff, hzero⟩ := readCalls_lost calls (ps.flatMap bytes) hd
  rw [hiff]
  constructor
  · rintro ⟨rest, hps, hleft⟩
    have hcount := congrArg List.length hps
    rw [List.length_append] at hcount
    rw [hleft, length_flatMap_bytes, length_flatMap_bytes, hcount, Nat.mul_add] at hlen
    omega
  · intro h
    exact cut_unique _ ps _ (hzero h)

/-- An Attach that comes in two pieces with an `EINTR` between them, then nothing, then a Detach. -/
def piecedAttach : List (List ReadRet) := [[.avail 3, .fail .eintr, .avail 7], [.fail .eagain], [.avail 10]]

theorem piecedAttach_cut :
    ∃ rest, [encode .attach 1, new .detach] =
        (readCalls piecedAttach ([encode .attach 1, new .detach].flatMap bytes)).1 ++ rest ∧
      (readCalls piecedAttach ([encode .attach 1, new .detach].flatMap bytes)).2 = rest.flatMap bytes :=
  (readCalls_exact_iff [encode .attach 1, new .detach] (by simp [piecedAttach, ReadRet.Delivers])).2 (by decide)

/-- An Attach of which three bytes come first, and the rest with a Detach after it. -/
def splitAttach : List (List ReadRet) := [[.avail 3, .fail .eagain], [.avail 17], [.avail 7]]

theorem splitAttach_delivers : ∀ rs ∈ splitAttach, ∀ r ∈ rs, r.Delivers := by
  simp [splitAttach, ReadRet.Delivers]

/-- The second call returns a packet that was never sent. -/
theorem splitAttach_misframed : ¬ ∀ (ps : List Packet) (calls : List (List ReadRet)), (∀ rs ∈ calls, ∀ r ∈ rs, r.Delivers) →
    ∃ rest, ps = (readCalls calls (ps.flatMap bytes)).1 ++ rest ∧
      (readCalls calls (ps.flatMap bytes)).2 = rest.flatMap bytes := by
  intro h
  obtain ⟨rest, hps, -⟩ := h [encode .attach 1, new .detach] splitAttach splitAttach_delivers
  have hread : (readCalls splitAttach ([encode .attach 1, new .detach].flatMap bytes)).1 =
      [ofBytes [0, 0, 0, 0, 0, 0, 0, 2, 0, 0]] := by decide
  rw [hread] at hps
  exact absurd (List.cons.inj hps).1 (by decide)

end Packet

/-! ## Written and read in pieces -/

/-- A write of some bytes, or an `EINTR`. -/
def WriteRet.Short : WriteRet → Prop
  | .room n => 0 < n
  | .fail e => e = .eintr

def ReadRet.Short : ReadRet → Prop
  | .avail n => 0 < n
  | .closed => False
  | .fail e => e = .eintr

instance : DecidablePred WriteRet.Short
  | .room n => inferInstanceAs (Decidable (0 < n))
  | .fail e => inferInstanceAs (Decidable (e = .eintr))

instance : DecidablePred ReadRet.Short
  | .avail n => inferInstanceAs (Decidable (0 < n))
  | .closed => inferInstanceAs (Decidable False)
  | .fail e => inferInstanceAs (Decidable (e = .eintr))

/-- How many bytes the answers have room for. -/
def WriteRet.total : List WriteRet → Nat
  | [] => 0
  | .room n :: ws => n + total ws
  | .fail _ :: ws => total ws

/-- How many bytes the answers let through. -/
def ReadRet.total : List ReadRet → Nat
  | [] => 0
  | .avail n :: rs => n + total rs
  | .closed :: rs | .fail _ :: rs => total rs

namespace Packet

/-- The answers to one `write_to` see its packet through, in any pieces. -/
def SentBy (ws : List WriteRet) : Prop := (∀ w ∈ ws, w.Short) ∧ packetSize ≤ WriteRet.total ws

/-- The answers to one `read_from` see a packet through, in any pieces. -/
def GotBy (rs : List ReadRet) : Prop := (∀ r ∈ rs, r.Short) ∧ packetSize ≤ ReadRet.total rs

instance (ws : List WriteRet) : Decidable (SentBy ws) := inferInstanceAs (Decidable (_ ∧ _))

instance (rs : List ReadRet) : Decidable (GotBy rs) := inferInstanceAs (Decidable (_ ∧ _))

theorem writeLoop_short : ∀ (ws : List WriteRet) (left : List Byte), (∀ w ∈ ws, w.Short) →
    left.length ≤ WriteRet.total ws → (writeLoop left ws).res = .ok ()
  | [], left, _, hle => by
    rw [writeLoop, if_pos (List.length_eq_zero_iff.1 (Nat.le_zero.1 hle))]
  | w :: ws, left, hs, hle => by
    have hs' : ∀ w ∈ ws, w.Short := fun w' hw' => hs w' (List.mem_cons_of_mem _ hw')
    unfold writeLoop
    by_cases hne : left = []
    · rw [if_pos hne]
    · rw [if_neg hne]
      have hpos := List.length_pos_iff.2 hne
      have hw := hs w List.mem_cons_self
      cases w with
      | room n =>
        obtain ⟨m, hm⟩ : ∃ m, min n left.length = m + 1 :=
          ⟨min n left.length - 1, by have : 0 < n := hw; omega⟩
        rw [WriteRet.total] at hle
        simp only [WriteRet.ret, hm]
        exact writeLoop_short ws _ hs' (by rw [List.length_drop]; omega)
      | fail e =>
        obtain rfl : e = .eintr := hw
        exact writeLoop_short ws left hs' hle

/-- **One `read_from` in pieces** takes what it lacks of a packet from the front of what has come. -/
theorem readLoop_short : ∀ (rs : List ReadRet) (got front inp : List Byte), (∀ r ∈ rs, r.Short) →
    (got ++ front).length = packetSize → front.length ≤ ReadRet.total rs →
    (readLoop got (front ++ inp) rs).res = .ok (ofBytes (got ++ front)) ∧ (readLoop got (front ++ inp) rs).inp = inp
  | [], got, front, inp, _, hlen, hle => by
    have hnil : front = [] := List.length_eq_zero_iff.1 (Nat.le_zero.1 hle)
    subst hnil
    rw [List.append_nil] at hlen ⊢
    rw [readLoop_full hlen]
    exact ⟨rfl, rfl⟩
  | r :: rs, got, front, inp, hs, hlen, hle => by
    have hs' : ∀ r ∈ rs, r.Short := fun r' hr' => hs r' (List.mem_cons_of_mem _ hr')
    cases front with
    | nil =>
      rw [List.append_nil] at hlen ⊢
      rw [readLoop_full hlen]
      exact ⟨rfl, rfl⟩
    | cons b rest =>
      rw [List.length_append, List.length_cons] at hlen
      have hr := hs r List.mem_cons_self
      cases r with
      | avail n =>
        have hn : 0 < n := hr
        rw [ReadRet.total, List.length_cons] at hle
        obtain ⟨m, hm⟩ : ∃ m, min n (packetSize - got.length) = m + 1 := ⟨min n (packetSize - got.length) - 1, by omega⟩
        have hret : (ReadRet.avail n).ret (b :: rest ++ inp) (packetSize - got.length) = .ok (b :: rest.take m) := by
          simp only [ReadRet.ret]
          rw [if_neg (by rw [List.length_append, List.length_cons]; omega), hm,
            List.take_append_of_le_length (by rw [List.length_cons]; omega), List.take_succ_cons]
        rw [readLoop, if_pos (by omega), hret]
        simp only
        rw [List.length_take, Nat.min_eq_left (by omega), List.cons_append, List.drop_succ_cons,
          List.drop_append_of_le_length (by omega)]
        have ih := readLoop_short rs (got ++ b :: rest.take m) (rest.drop m) inp hs'
          (by simp only [List.length_append, List.length_cons, List.length_take, List.length_drop]; omega)
          (by rw [List.length_drop]; omega)
        rwa [List.append_assoc, List.cons_append, List.take_append_drop] at ih
      | closed => exact hr.elim
      | fail e =>
        obtain rfl : e = .eintr := hr
        rw [readLoop, if_pos (by omega)]
        exact readLoop_short rs got (b :: rest) inp hs' (by rw [List.length_append, List.length_cons, hlen]) hle

/-- A `read_from` that returns a packet has taken its bytes, whatever came in between. -/
theorem readLoop_ok : ∀ (rs : List ReadRet) (got inp : List Byte) (p : Packet), got.length ≤ packetSize →
    (readLoop got inp rs).res = .ok p → got ++ inp = p.bytes ++ (readLoop got inp rs).inp
  | [], got, inp, p, hle, h => by
    rw [readLoop] at h ⊢
    by_cases hlt : got.length < packetSize
    · rw [if_pos hlt] at h
      cases h
    · rw [if_neg hlt] at h ⊢
      obtain rfl := Except.ok.inj h
      rw [bytes_ofBytes (by omega)]
  | r :: rs, got, inp, p, hle, h => by
    rw [readLoop] at h ⊢
    by_cases hlt : got.length < packetSize
    · rw [if_pos hlt] at h ⊢
      cases hr : r.ret inp (packetSize - got.length) with
      | ok read =>
        obtain ⟨hlen, hinp⟩ := ReadRet.ret_prefix hr
        rw [hr] at h
        cases read with
        | nil => cases h
        | cons b bs =>
          rw [List.length_cons] at hlen
          simp only at h ⊢
          rw [← readLoop_ok rs (got ++ b :: bs) _ p (by rw [List.length_append, List.length_cons]; omega) h,
            List.append_assoc]
          exact congrArg _ hinp
      | error e =>
        rw [hr] at h
        cases e with
        | eintr => exact readLoop_ok rs got inp p hle h
        | eagain => cases h
        | other k => cases h
    · rw [if_neg hlt] at h ⊢
      obtain rfl := Except.ok.inj h
      rw [bytes_ofBytes (by omega)]

/-- Successive calls of `read_from`, each with the answers to its reads, and what each of them left. -/
def readEach : List (List ReadRet) → List Byte → List ReadOut
  | [], _ => []
  | rs :: calls, inp => readFrom inp rs :: readEach calls (readFrom inp rs).inp

/-- What successive calls of `write_to`, each with the answers to its writes, put on the wire. -/
def written (calls : List (Packet × List WriteRet)) : List Byte := calls.flatMap (fun c => (writeTo c.1 c.2).sent)

theorem writeTo_sentBy (p : Packet) {ws : List WriteRet} (h : SentBy ws) :
    (writeTo p ws).res = .ok () ∧ (writeTo p ws).sent = p.bytes := by
  have hok := writeLoop_short ws p.bytes h.1 (by rw [p.length_bytes]; exact h.2)
  exact ⟨hok, writeLoop_ok ws p.bytes hok⟩

theorem readFrom_gotBy (p : Packet) (inp : List Byte) {rs : List ReadRet} (h : GotBy rs) :
    (readFrom (p.bytes ++ inp) rs).res = .ok p ∧ (readFrom (p.bytes ++ inp) rs).inp = inp := by
  have hread := readLoop_short rs [] p.bytes inp h.1 p.length_bytes (by rw [p.length_bytes]; exact h.2)
  rwa [List.nil_append, ofBytes_bytes] at hread

theorem readEach_written : ∀ (calls : List (Packet × List WriteRet)) (reads : List (List ReadRet)),
    (∀ c ∈ calls, SentBy c.2) → (∀ rs ∈ reads, GotBy rs) → ∀ i, i < calls.length → i < reads.length →
      ((readEach reads (written calls))[i]?).map ReadOut.res = (calls[i]?).map (fun c => .ok c.1)
  | [], _, _, _, _, hi, _ => absurd hi (Nat.not_lt_zero _)
  | _ :: _, [], _, _, _, _, hi => absurd hi (Nat.not_lt_zero _)
  | c :: calls, rs :: reads, hw, hr, i, hi, hi' => by
    have hfront : written (c :: calls) = c.1.bytes ++ written calls := by
      rw [written, List.flatMap_cons, (writeTo_sentBy c.1 (hw c List.mem_cons_self)).2]
      rfl
    obtain ⟨hres, hinp⟩ := readFrom_gotBy c.1 (written calls) (hr rs List.mem_cons_self)
    rw [readEach, hfront, hinp]
    cases i with
    | zero => simp [hres]
    | succ i =>
      rw [List.getElem?_cons_succ, List.getElem?_cons_succ]
      exact readEach_written calls reads (fun c' hc' => hw c' (List.mem_cons_of_mem _ hc'))
        (fun rs' hrs' => hr rs' (List.mem_cons_of_mem _ hrs')) i (Nat.lt_of_succ_lt_succ hi) (Nat.lt_of_succ_lt_succ hi')

/-- **Packets written and read back in pieces**: whatever the pieces on either side, the call of `read_from` with a given
number returns the packet of the `write_to` with that number; a `write_to` that succeeds puts the packet's ten bytes on
the wire, and a `read_from` that succeeds takes the ten bytes of what it returns. -/
theorem roundtrip_in_pieces (calls : List (Packet × List WriteRet)) (reads : List (List ReadRet))
    (hw : ∀ c ∈ calls, SentBy c.2) (hr : ∀ rs ∈ reads, GotBy rs) :
    (∀ c ∈ calls, (writeTo c.1 c.2).res = .ok ()) ∧
    (∀ i, i < calls.length → i < reads.length →
      ((readEach reads (written calls))[i]?).map ReadOut.res = (calls[i]?).map (fun c => .ok c.1)) ∧
    (∀ (p : Packet) (ws : List WriteRet), (writeTo p ws).res = .ok () →
      (writeTo p ws).sent = p.msgType :: p.len :: p.data ∧ (writeTo p ws).sent.length = 10) ∧
    ∀ (inp : List Byte) (rs : List ReadRet) (p : Packet), (readFrom inp rs).res = .ok p →
      inp = (p.msgType :: p.len :: p.data) ++ (readFrom inp rs).inp ∧ inp.length = 10 + (readFrom inp rs).inp.length := by
  refine ⟨fun c hc => (writeTo_sentBy c.1 (hw c hc)).1, readEach_written calls reads hw hr, fun p ws h => ?_,
    fun inp rs p h => ?_⟩
  · have hsent : (writeTo p ws).sent = p.bytes := writeLoop_ok ws p.bytes h
    exact ⟨hsent, by rw [hsent, length_bytes]; rfl⟩
  · have hinp : inp = p.bytes ++ (readFrom inp rs).inp := readLoop_ok rs [] inp p (Nat.zero_le _) h
    refine ⟨hinp, ?_⟩
    conv => lhs; rw [hinp, List.length_append, length_bytes]
    rfl

/-- Two packets, written in other pieces than they are read in. -/
theorem roundtrip_in_pieces_two :
    ((readEach [[.avail 9, .fail .eintr, .avail 4], [.avail 3, .avail 3, .avail 4]]
        (written [(encode .attach 1, [.room 4, .fail .eintr, .room 6]), (new .detach, [.fail .eintr, .room 12])]))[1]?).map
      ReadOut.res = some (.ok (new .detach)) :=
  (roundtrip_in_pieces [(encode .attach 1, [.room 4, .fail .eintr, .room 6]), (new .detach, [.fail .eintr, .room 12])]
    [[.avail 9, .fail .eintr, .avail 4], [.avail 3, .avail 3, .avail 4]] (by decide) (by decide)).2.1 1 (by decide)
    (by decide)

end Packet

end Zatch
