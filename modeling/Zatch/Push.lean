import Zatch.Delivery
/-!
# Push — from the standard input of `Session::push` to the PTY

`Session::push` cuts its input into pieces of up to eight bytes, a packet each; the daemon writes each piece to the PTY
once and does not look at what became of it.  The PTY gets the input exactly when it takes every piece whole
(`push_exact_iff`).
-/
namespace Zatch

open Machine (run)

/-- The packet `Session::push` makes of a piece of its input. -/
def Packet.push (bs : List Byte) : Packet :=
  ⟨MsgType.push.toU8, UInt8.ofNat bs.length, (bs ++ List.replicate 8 0).take 8, by simp⟩

/-- What `Session::push` left: the packets it wrote whole, everything it wrote, the input it did not read, and its status
when it returned. -/
structure PushOut where
  packets : List Packet
  wire : List Byte
  left : List Byte
  status : Option Nat
deriving DecidableEq

/-- `Session::push`, once it is connected, with the answers to its reads of the standard input and to its writes. -/
def Session.push (inp : List Byte) : List ReadRet → List WriteRet → PushOut
  | [], _ => ⟨[], [], inp, none⟩
  | r :: rs, ws =>
    match r.ret inp 8 with
    | .ok [] => ⟨[], [], inp, some 0⟩
    | .ok (b :: bs) =>
      let o := (Packet.push (b :: bs)).writeTo ws
      let inp' := inp.drop (bs.length + 1)
      match o.res with
      | .ok _ =>
        let k := Session.push inp' rs o.rest
        { k with packets := Packet.push (b :: bs) :: k.packets, wire := o.sent ++ k.wire }
      | .error _ => ⟨[], o.sent, inp', some 1⟩
    | .error _ => ⟨[], [], inp, some 1⟩

/-- **What `Session::push` sends when it returns 0**: its input in pieces of one to eight bytes, each in a packet. -/
theorem Session.push_spec : ∀ (rs : List ReadRet) (inp : List Byte) (ws : List WriteRet),
    (Session.push inp rs ws).status = some 0 →
    ∃ pieces : List (List Byte), (∀ bs ∈ pieces, bs ≠ [] ∧ bs.length ≤ 8) ∧
      (Session.push inp rs ws).packets = pieces.map Packet.push ∧
      inp = pieces.flatten ++ (Session.push inp rs ws).left ∧
      (Session.push inp rs ws).wire = (Session.push inp rs ws).packets.flatMap Packet.bytes
  | [], _, _, h => by cases h
  | r :: rs, inp, ws, h => by
    rw [Session.push] at h ⊢
    cases hr : r.ret inp 8 with
    | error e => rw [hr] at h; cases h
    | ok read =>
      obtain ⟨hlen, hinp⟩ := ReadRet.ret_prefix hr
      rw [hr] at h
      cases read with
      | nil => exact ⟨[], by simp, rfl, rfl, rfl⟩
      | cons b bs =>
        simp only at h ⊢
        cases ho : ((Packet.push (b :: bs)).writeTo ws).res with
        | error e => rw [ho] at h; cases h
        | ok u =>
          rw [ho] at h
          have hsent : ((Packet.push (b :: bs)).writeTo ws).sent = (Packet.push (b :: bs)).bytes :=
            Packet.writeLoop_ok ws _ ho
          obtain ⟨pieces, h1, h2, h3, h4⟩ := push_spec rs _ _ h
          refine ⟨(b :: bs) :: pieces, List.forall_mem_cons.2 ⟨⟨List.cons_ne_nil b bs, hlen⟩, h1⟩, ?_, ?_, ?_⟩
          · simp only [h2, List.map_cons]
          · rw [List.flatten_cons, List.append_assoc, ← h3]
            exact hinp
          · simp only [List.flatMap_cons, hsent, h4]

/-! ## In the daemon -/

def Effect.ptyOf : Effect → List Byte
  | .ptyWrote bs => bs
  | _ => []

def ptyTook (fx : List Effect) : List Byte := fx.flatMap Effect.ptyOf

namespace SessionDaemon

/-- Push packets handled one after the other, each with the answer to its write to the PTY. -/
def handlePushes (d : SessionDaemon) (xs : List (Packet × WriteRet)) : SessionDaemon × List Effect :=
  run (fun d x => ((d.handlePush x.1 x.2).d, (d.handlePush x.1 x.2).fx)) d xs

def InFull (w : WriteRet) (count : Nat) : Prop := ∃ n, w = .room n ∧ count ≤ n

instance (w : WriteRet) (count : Nat) : Decidable (InFull w count) :=
  match w with
  | .room n => decidable_of_iff (count ≤ n) ⟨fun h => ⟨n, rfl, h⟩, fun ⟨_, hw, h⟩ => WriteRet.room.inj hw ▸ h⟩
  | .fail _ => isFalse (fun ⟨_, hw, _⟩ => WriteRet.noConfusion hw)

theorem len_push {bs : List Byte} (hle : bs.length ≤ 8) : (Packet.push bs).len.toNat = bs.length := by
  simp only [Packet.push]
  rw [UInt8.toNat_ofNat', Nat.mod_eq_of_lt (by omega)]

theorem handlePush_push (d : SessionDaemon) {bs : List Byte} (hne : bs ≠ []) (hle : bs.length ≤ 8) (w : WriteRet) :
    d.handlePush (Packet.push bs) w = ⟨d, ptyWrite bs w, true⟩ := by
  have hlen := len_push hle
  have hmin : min (Packet.push bs).len.toNat (Packet.push bs).data.length = bs.length := by
    rw [hlen, (Packet.push bs).data_length]; omega
  have hdata : (Packet.push bs).data.take bs.length = bs := by
    simp only [Packet.push]
    rw [List.take_take, Nat.min_eq_left hle, List.take_left]
  unfold handlePush
  simp only [hmin, hdata]
  exact if_pos (List.length_pos_iff.2 hne)

theorem ptyTook_ptyWrite (bs : List Byte) (w : WriteRet) : ptyTook (ptyWrite bs w) <+: bs ∧
    (bs ≠ [] → (ptyTook (ptyWrite bs w) = bs ↔ InFull w bs.length)) := by
  unfold ptyWrite
  cases w with
  | room n =>
    have htook : ptyTook [.ptyWrote (bs.take (min n bs.length))] = bs.take (min n bs.length) := by
      simp [ptyTook, Effect.ptyOf]
    simp only [WriteRet.ret, htook]
    refine ⟨List.take_prefix _ _, fun hne => ⟨fun h => ?_, ?_⟩⟩
    · have := congrArg List.length h
      rw [List.length_take] at this
      exact ⟨n, rfl, by omega⟩
    · rintro ⟨m, hm, hle⟩
      obtain rfl := WriteRet.room.inj hm
      rw [Nat.min_eq_right hle, List.take_length]
  | fail e =>
    refine ⟨List.nil_prefix, fun hne => ⟨fun h => absurd h.symm hne, ?_⟩⟩
    rintro ⟨m, hm, -⟩
    cases hm

theorem append_eq_append_iff_of_le {α : Type} {t p T P : List α} (ht : t <+: p) (hT : T.length ≤ P.length) :
    t ++ T = p ++ P ↔ t = p ∧ T = P := by
  refine ⟨fun h => ?_, fun ⟨h1, h2⟩ => by rw [h1, h2]⟩
  have hlen := congrArg List.length h
  rw [List.length_append, List.length_append] at hlen
  have := ht.length_le
  exact List.append_inj h (by omega)

/-- **The pieces of an input handled one after the other**: the PTY gets no more than all of it, and all of it exactly when
every write is answered in full. -/
theorem handlePushes_spec (d : SessionDaemon) : ∀ (pieces : List (List Byte)) (answers : List WriteRet),
    (∀ bs ∈ pieces, bs ≠ [] ∧ bs.length ≤ 8) → answers.length = pieces.length →
    (ptyTook (d.handlePushes ((pieces.map Packet.push).zip answers)).2).length ≤ pieces.flatten.length ∧
    (ptyTook (d.handlePushes ((pieces.map Packet.push).zip answers)).2 = pieces.flatten ↔
      ∀ x ∈ (pieces.map Packet.push).zip answers, InFull x.2 x.1.len.toNat)
  | [], _, _, _ => ⟨Nat.le_refl _, by simp [handlePushes, ptyTook]⟩
  | bs :: pieces, [], _, hn => by cases hn
  | bs :: pieces, w :: answers, hp, hn => by
    obtain ⟨⟨hne, hle⟩, hp'⟩ := List.forall_mem_cons.1 hp
    obtain ⟨h1, h2⟩ := handlePushes_spec d pieces answers hp' (Nat.succ.inj hn)
    obtain ⟨hpre, hfull⟩ := ptyTook_ptyWrite bs w
    have hstep : ptyTook (d.handlePushes (((bs :: pieces).map Packet.push).zip (w :: answers))).2 =
        ptyTook (ptyWrite bs w) ++ ptyTook (d.handlePushes ((pieces.map Packet.push).zip answers)).2 := by
      rw [List.map_cons, List.zip_cons_cons, handlePushes, Machine.run_cons]
      simp only [handlePush_push d hne hle w]
      exact List.flatMap_append
    rw [hstep, List.flatten_cons]
    refine ⟨?_, ?_⟩
    · rw [List.length_append, List.length_append]
      have := hpre.length_le
      omega
    · rw [append_eq_append_iff_of_le hpre h1, hfull hne, h2, List.map_cons, List.zip_cons_cons, List.forall_mem_cons,
        len_push hle]

/-- **`Session::push` and the daemon together**: with the packets delivered, the PTY accepts the input of `push` byte for
byte exactly when every write of a packet's `len` bytes to it is answered in full. -/
theorem push_exact_iff (d : SessionDaemon) (inp : List Byte) (rs : List ReadRet) (ws : List WriteRet)
    (hret : (Session.push inp rs ws).status = some 0) (hall : (Session.push inp rs ws).left = []) (answers : List WriteRet)
    (hn : answers.length = (Session.push inp rs ws).packets.length) :
    ptyTook (d.handlePushes ((Session.push inp rs ws).packets.zip answers)).2 = inp ↔
      ∀ x ∈ (Session.push inp rs ws).packets.zip answers, InFull x.2 x.1.len.toNat := by
  obtain ⟨pieces, hp, hpkts, hinp, -⟩ := Session.push_spec rs inp ws hret
  rw [hall, List.append_nil] at hinp
  rw [hpkts, List.length_map] at hn
  have hspec := (handlePushes_spec d pieces answers hp hn).2
  rw [← hinp] at hspec
  rw [hpkts]
  exact hspec

def tenBytes : List Byte := [104, 101, 108, 108, 111, 32, 121, 111, 117, 10]

def tenPushed : PushOut := Session.push tenBytes [.avail 10, .avail 2, .closed] [.room 10, .room 10]

theorem tenPushed_taken : ptyTook (fresh.handlePushes (tenPushed.packets.zip [.room 100, .room 100])).2 = tenBytes :=
  (push_exact_iff fresh tenBytes [.avail 10, .avail 2, .closed] [.room 10, .room 10] (by decide) (by decide)
    [.room 100, .room 100] (by decide)).2 (by decide)

/-- The child has stopped reading: the PTY has room for three bytes, and then for none. -/
theorem push_loses_refused : ¬ ∀ (d : SessionDaemon) (inp : List Byte) (rs : List ReadRet) (ws : List WriteRet)
    (answers : List WriteRet), (Session.push inp rs ws).status = some 0 → (Session.push inp rs ws).left = [] →
    answers.length = (Session.push inp rs ws).packets.length →
    ptyTook (d.handlePushes ((Session.push inp rs ws).packets.zip answers)).2 = inp := by
  intro h
  have := h fresh tenBytes [.avail 10, .avail 2, .closed] [.room 10, .room 10] [.room 3, .fail .eagain] (by decide)
    (by decide) (by decide)
  revert this
  decide +kernel

end SessionDaemon

end Zatch
