import Zatch.Scrollback
import Zatch.Lib.Fed
/-!
# WriteLoops — the three loops around `write(2)` (`protocol.rs`, `scrollback.rs`)

`Packet::write_to`, `write_buf` and `ReplayState::drain` each write until nothing is left to write, and go round again after
an `EINTR`.  They part where `write` takes no byte: `write_to` gives up there, the other two go round.  So on an endless
supply of answers with finitely many `EINTR`s `write_to` returns, and the other two exactly when an answer ends them or the
counts cover what they have to write (`write_loops_return_iff`).
-/
namespace Zatch

open Fed (Returns Loop Covers)

/-- What an answer has room for. -/
def WriteRet.count : WriteRet → Nat
  | .room n => n
  | .fail _ => 0

/-- An answer that ends each of the loops. -/
def WriteRet.Ends (w : WriteRet) : Prop := ∃ e, w = .fail e ∧ e ≠ .eintr

theorem WriteRet.eq_eintr_of_not_ends {e : Errno} (h : ¬ (WriteRet.fail e).Ends) : e = .eintr := by
  by_contra he
  exact h ⟨e, rfl, he⟩

/-! ## `Packet::write_to` -/

namespace Packet

/-- The loop of `write_to`, one turn at a time: `left` is what it still has to write. -/
def writeToLoop : Loop (List Byte) WriteRet where
  isOver left := left.isEmpty
  turn left w :=
    match w.ret left.length with
    | .ok 0 => none
    | .ok (n + 1) => some (left.drop (n + 1))
    | .error .eintr => some left
    | .error _ => none

theorem writeTo_rest (p : Packet) : (fun ws => (p.writeTo ws).rest) = writeToLoop.rest p.bytes := by
  apply Loop.eq_rest (f := fun left ws => (writeLoop left ws).rest)
  · intro left
    rw [writeLoop]
    split <;> rfl
  · intro left w ws
    cases left with
    | nil => rw [writeLoop, if_pos rfl]; rfl
    | cons b left =>
      rw [writeLoop, if_neg (List.cons_ne_nil b left)]
      simp only [writeToLoop]
      cases w.ret (b :: left).length with
      | ok n => cases n <;> rfl
      | error e => cases e <;> rfl

/-- **A turn of `write_to` that goes on has written something**, after any answer but `EINTR`. -/
theorem length_writeToLoop_turn {left left' : List Byte} {w : WriteRet} (hw : w ≠ .fail .eintr)
    (hover : writeToLoop.isOver left = false) (hturn : writeToLoop.turn left w = some left') :
    left'.length < left.length := by
  have hne : left ≠ [] := by
    rintro rfl
    cases hover
  simp only [writeToLoop] at hturn
  split at hturn
  · cases hturn
  · obtain rfl := Option.some.inj hturn
    have := List.length_pos_of_ne_nil hne
    rw [List.length_drop]
    omega
  · rename_i hret
    exact absurd (WriteRet.ret_error hret) hw
  · cases hturn

/-- **`write_to` returns**, whatever the answers are, once there are no more `EINTR`s. -/
theorem writeTo_returns (p : Packet) (ans : Stream' WriteRet)
    (hintr : ∃ N, ∀ i, N ≤ i → ans.get i ≠ .fail .eintr) : Returns (fun ws => (p.writeTo ws).rest) ans := by
  obtain ⟨N, hN⟩ := hintr
  rw [writeTo_rest]
  apply Loop.returns_of_drop_from List.length N
  intro i hi left left' hover hturn
  exact length_writeToLoop_turn (hN i hi) hover hturn

end Packet

/-! ## `write_buf` -/

/-- The loop of `write_buf`, one turn at a time. -/
def writeBufLoop : Loop (List Byte) WriteRet where
  isOver left := left.isEmpty
  turn left w :=
    match w.ret left.length with
    | .ok n => some (left.drop n)
    | .error .eintr => some left
    | .error _ => none

theorem writeBuf_rest (buf : List Byte) : (fun ws => (writeBuf buf ws).2) = writeBufLoop.rest buf := by
  apply Loop.eq_rest (f := fun buf ws => (writeBuf buf ws).2)
  · exact fun _ => rfl
  · intro buf w ws
    cases buf with
    | nil => rw [writeBuf, if_pos rfl]; rfl
    | cons b buf =>
      rw [writeBuf, if_neg (List.cons_ne_nil b buf)]
      simp only [writeBufLoop]
      cases w.ret (b :: buf).length with
      | ok n => rfl
      | error e => cases e <;> rfl

/-- What `write_buf` has to move: one piece. -/
def onePiece (left : List Byte) : List Nat := if left = [] then [] else [left.length]

theorem onePiece_drop (b : Byte) (left : List Byte) (n : Nat) :
    onePiece ((b :: left).drop n) = Fed.advance n (onePiece (b :: left)) := by
  unfold onePiece
  rw [if_neg (List.cons_ne_nil b left), Fed.advance]
  simp only [List.drop_eq_nil_iff, List.length_drop]

theorem drop_min_length (left : List Byte) (n : Nat) : left.drop (min n left.length) = left.drop n := by
  rcases Nat.le_total n left.length with h | h
  · rw [Nat.min_eq_left h]
  · rw [Nat.min_eq_right h, List.drop_length, List.drop_eq_nil_of_le h]

theorem writeBufLoop_moves : writeBufLoop.Moves (fun _ => True) WriteRet.Ends WriteRet.count onePiece where
  isOver_iff {left} _ := by cases left <;> simp [writeBufLoop, onePiece]
  pos {left} _ := by
    cases left with
    | nil => exact fun p hp => by cases hp
    | cons b left => simp [onePiece]
  stop {left w} _ _ hends := by
    obtain ⟨e, rfl, he⟩ := hends
    cases e with
    | eintr => exact absurd rfl he
    | eagain => rfl
    | other k => rfl
  go {left w} _ hover hends := by
    obtain ⟨b, left, rfl⟩ := List.exists_cons_of_ne_nil (l := left) (by rintro rfl; cases hover)
    cases w with
    | room n =>
      refine ⟨(b :: left).drop n, ?_, trivial, onePiece_drop b left n⟩
      simp only [writeBufLoop, WriteRet.ret, drop_min_length]
    | fail e =>
      obtain rfl := WriteRet.eq_eintr_of_not_ends hends
      exact ⟨b :: left, rfl, trivial, onePiece_drop b left 0⟩

/-- **`write_buf` returns exactly when** an answer ends it or the counts add up to its buffer. -/
theorem writeBuf_returns_iff (buf : List Byte) (ans : Stream' WriteRet) :
    Returns (fun ws => (writeBuf buf ws).2) ans ↔
      (∃ i, (ans.get i).Ends) ∨ ∃ n, buf.length ≤ ((ans.take n).map WriteRet.count).sum := by
  rw [writeBuf_rest, writeBufLoop_moves.returns_iff trivial]
  cases buf with
  | nil =>
    have hall : ∃ n, Covers (onePiece []) ((ans.take n).map WriteRet.count) := ⟨0, Fed.covers_nil _⟩
    exact or_congr_right ⟨fun _ => ⟨0, Nat.zero_le _⟩, fun _ => hall⟩
  | cons b buf =>
    have hpiece : onePiece (b :: buf) = [(b :: buf).length] := if_neg (List.cons_ne_nil b buf)
    simp only [hpiece, Fed.covers_singleton]

/-! ## `ReplayState::drain` -/

namespace ReplayState

/-- The loop of `drain`, one turn at a time. -/
def drainLoop : Loop ReplayState WriteRet where
  isOver rs := rs.remaining == 0
  turn rs w :=
    match w.ret (min (scrollbackSize - rs.head) rs.remaining) with
    | .error .eintr => some rs
    | .error _ => none
    | .ok ret => some ⟨(rs.head + ret) &&& (scrollbackSize - 1), rs.remaining - ret⟩

theorem drain_rest (sb : Scrollback) (rs : ReplayState) : (fun ws => (drain sb rs ws).rest) = drainLoop.rest rs := by
  apply Loop.eq_rest (f := fun rs ws => (drain sb rs ws).rest)
  · exact fun _ => rfl
  · intro rs w ws
    rw [drain]
    split
    · rename_i hrem
      have hover : drainLoop.isOver rs = false := by simpa [drainLoop] using Nat.pos_iff_ne_zero.1 hrem
      rw [hover, if_neg Bool.false_ne_true]
      simp only [drainLoop]
      cases w.ret (min (scrollbackSize - rs.head) rs.remaining) with
      | ok ret => rfl
      | error e => cases e <;> rfl
    · rename_i hrem
      have hover : drainLoop.isOver rs = true := by simpa [drainLoop] using Nat.eq_zero_of_not_pos hrem
      rw [hover, if_pos rfl]

/-- What a drain has to move: the part of its window up to the end of the ring, and the part after. -/
def pieces (rs : ReplayState) : List Nat := Cyclic.pieces scrollbackSize rs.head rs.remaining

/-- **Moving the start of a window past what a write covers** leaves what the write leaves of its pieces. -/
theorem advance_pieces {size h r : Nat} (hh : h < size) (hr : 0 < r) (n : Nat) : Fed.advance n (Cyclic.pieces size h r) =
    Cyclic.pieces size ((h + min n (min (size - h) r)) % size) (r - min n (min (size - h) r)) := by
  rw [Cyclic.pieces_cons hh hr, Fed.advance]
  split
  · rename_i hfull
    rw [Nat.min_eq_right hfull]
    rcases Nat.le_total r (size - h) with hle | hle
    · rw [Nat.min_eq_right hle, Nat.sub_self, Cyclic.pieces_zero, Cyclic.pieces_zero]
    · have hwrap : h + (size - h) = size := by omega
      rw [Nat.min_eq_left hle, hwrap, Nat.mod_self]
  · rename_i hfull
    have hpart : n < min (size - h) r := Nat.not_le.1 hfull
    have hhead : h + n < size := by omega
    have hfirst : min (size - (h + n)) (r - n) = min (size - h) r - n := by omega
    have hafter : r - n - (min (size - h) r - n) = r - min (size - h) r := by omega
    rw [Nat.min_eq_left (Nat.le_of_lt hpart), Nat.mod_eq_of_lt hhead, Cyclic.pieces_cons hhead (by omega), hfirst, hafter]

theorem drainLoop_moves : drainLoop.Moves (fun rs => rs.head < scrollbackSize) WriteRet.Ends WriteRet.count pieces where
  isOver_iff {rs} h := by
    unfold pieces
    rw [Cyclic.pieces_eq_nil_iff h]
    exact beq_iff_eq
  pos {rs} _ := Cyclic.pos_of_mem_pieces scrollbackSize rs.remaining rs.head
  stop {rs w} _ _ hends := by
    obtain ⟨e, rfl, he⟩ := hends
    cases e with
    | eintr => exact absurd rfl he
    | eagain => rfl
    | other k => rfl
  go {rs w} h hover hends := by
    have hrem : 0 < rs.remaining := Nat.pos_of_ne_zero (by simpa [drainLoop] using hover)
    cases w with
    | room n =>
      refine ⟨_, rfl, ?_, ?_⟩
      · rw [land_mask]
        exact Nat.mod_lt _ scrollbackSize_pos
      · rw [land_mask]
        exact (advance_pieces h hrem n).symm
    | fail e =>
      obtain rfl := WriteRet.eq_eintr_of_not_ends hends
      have hmove := advance_pieces h hrem 0
      rw [Nat.zero_min, Nat.add_zero, Nat.sub_zero, Nat.mod_eq_of_lt h] at hmove
      exact ⟨rs, rfl, h, hmove.symm⟩

/-- **`drain` returns exactly when** an answer ends it or the counts cover its window piece by piece. -/
theorem drain_returns_iff (sb : Scrollback) (rs : ReplayState) (h : rs.head < scrollbackSize) (ans : Stream' WriteRet) :
    Returns (fun ws => (drain sb rs ws).rest) ans ↔
      (∃ i, (ans.get i).Ends) ∨ ∃ n, Covers rs.pieces ((ans.take n).map WriteRet.count) := by
  rw [drain_rest, drainLoop_moves.returns_iff h]

end ReplayState

/-! ## A descriptor that takes no byte -/

theorem sum_count_room_zero (n : Nat) : (((Stream'.const (WriteRet.room 0)).take n).map WriteRet.count).sum = 0 := by
  induction n with
  | zero => rfl
  | succ n ih =>
    rw [Stream'.take_succ, Stream'.tail_const, List.map_cons, List.sum_cons, ih]
    rfl

theorem not_ends_room_zero (i : Nat) : ¬ ((Stream'.const (WriteRet.room 0)).get i).Ends := by
  rintro ⟨e, he, -⟩
  cases he

/-- **`write_buf` spins** where no byte of its buffer is ever taken. -/
theorem writeBuf_spins {buf : List Byte} (hbuf : buf ≠ []) :
    ¬ Returns (fun ws => (writeBuf buf ws).2) (Stream'.const (.room 0)) := by
  rw [writeBuf_returns_iff]
  rintro (⟨i, hi⟩ | ⟨n, hn⟩)
  · exact not_ends_room_zero i hi
  · rw [sum_count_room_zero] at hn
    exact absurd (List.length_pos_of_ne_nil hbuf) (Nat.not_lt.2 hn)

/-- **`drain` spins** where no byte of what is pending is ever taken. -/
theorem ReplayState.drain_spins (sb : Scrollback) {rs : ReplayState} (h : rs.head < scrollbackSize)
    (hrem : 0 < rs.remaining) : ¬ Returns (fun ws => (drain sb rs ws).rest) (Stream'.const (.room 0)) := by
  rw [drain_returns_iff sb rs h]
  rintro (⟨i, hi⟩ | ⟨n, hn⟩)
  · exact not_ends_room_zero i hi
  · have hsum := hn.sum_le
    rw [sum_count_room_zero, pieces, Cyclic.pieces_cons h hrem, List.sum_cons] at hsum
    omega

/-! ## The three together -/

/-- **When the three loops return.**  On any endless supply of answers with finitely many `EINTR`s, `write_to` does;
`write_buf` does exactly when an error other than `EINTR` is among the answers or their counts add up to the buffer;
`drain` does exactly when there is such an error or the counts cover its window, the part up to the end of the ring and
then the part after. -/
theorem write_loops_return_iff (p : Packet) (buf : List Byte) (sb : Scrollback) (rs : ReplayState)
    (h : rs.head < scrollbackSize) (ans : Stream' WriteRet) (hintr : ∃ N, ∀ i, N ≤ i → ans.get i ≠ .fail .eintr) :
    Returns (fun ws => (p.writeTo ws).rest) ans ∧
    (Returns (fun ws => (writeBuf buf ws).2) ans ↔
      (∃ i, (ans.get i).Ends) ∨ ∃ n, buf.length ≤ ((ans.take n).map WriteRet.count).sum) ∧
    (Returns (fun ws => (ReplayState.drain sb rs ws).rest) ans ↔
      (∃ i, (ans.get i).Ends) ∨ ∃ n, Covers rs.pieces ((ans.take n).map WriteRet.count)) :=
  ⟨p.writeTo_returns ans hintr, writeBuf_returns_iff buf ans, ReplayState.drain_returns_iff sb rs h ans⟩

/-- A byte at a time, to a drain that has one byte pending on either side of the end of the ring. -/
theorem write_loops_return_wrap :
    Returns (fun ws => ((Packet.new .push).writeTo ws).rest) (Stream'.const (.room 1)) ∧
    Returns (fun ws => (writeBuf [97] ws).2) (Stream'.const (.room 1)) ∧
    Returns (fun ws => (ReplayState.drain Scrollback.new ⟨scrollbackSize - 1, 2⟩ ws).rest) (Stream'.const (.room 1)) := by
  have hpieces : ReplayState.pieces ⟨scrollbackSize - 1, 2⟩ = [1, 1] := by
    unfold ReplayState.pieces
    rw [Cyclic.pieces_cons (by decide) (by decide), Cyclic.pieces_cons (by decide) (by decide)]
    exact congrArg (fun ps => 1 :: 1 :: ps) (Cyclic.pieces_zero scrollbackSize 0)
  obtain ⟨hto, hbuf, hdrain⟩ := write_loops_return_iff (Packet.new .push) [97] Scrollback.new ⟨scrollbackSize - 1, 2⟩
    (by decide) (Stream'.const (.room 1)) ⟨0, fun i _ hi => by cases hi⟩
  refine ⟨hto, hbuf.2 (.inr ⟨1, by decide⟩), hdrain.2 (.inr ⟨2, ?_⟩)⟩
  rw [hpieces]
  exact ⟨[[1], [1]], List.prefix_rfl, .cons (Nat.le_refl 1) (.cons (Nat.le_refl 1) .nil)⟩

/-- A descriptor that takes no byte, ever: one byte to write, one byte pending, and neither loop returns. -/
theorem write_loops_spin :
    (∀ i, (Stream'.const (WriteRet.room 0)).get i ≠ .fail .eintr) ∧
    ¬ Returns (fun ws => (writeBuf [97] ws).2) (Stream'.const (.room 0)) ∧
    ¬ Returns (fun ws => (ReplayState.drain Scrollback.new ⟨0, 1⟩ ws).rest) (Stream'.const (.room 0)) := by
  refine ⟨fun i hi => ?_, writeBuf_spins (List.cons_ne_nil 97 []), ?_⟩
  · cases hi
  · exact ReplayState.drain_spins Scrollback.new (by decide) (by decide)

end Zatch
