import Mathlib.Data.List.Basic
/-!
# Sys — what the kernel answers

A system call is a function of what the kernel answers it.  An answer says what the other end of a descriptor was
ready for (room for so many bytes, so many bytes arrived, which descriptors are ready) or that the call failed; what
the call returns is computed from the answer and what was asked for (`WriteRet.ret`, `ReadRet.ret`, `fdSelect`), so
that no answer can return more than was asked.  A loop of the source takes the answers of its calls as a list; past the
end of the list a non-blocking descriptor answers `EAGAIN`, and `select` does not return.
-/
namespace Zatch

abbrev Byte := UInt8

/-- `RawFd`: the kernel hands out no negative descriptor. -/
abbrev RawFd := Nat

/-- `errno`, as far as the code tells its values apart: `ErrorKind::Interrupted`, `ErrorKind::WouldBlock`, any other. -/
inductive Errno
  | eintr
  | eagain
  | other (code : Nat)
deriving DecidableEq, Repr

/-- One answer of `write(2)`: the descriptor has room for `n` more bytes, or the call fails. -/
inductive WriteRet
  | room (n : Nat)
  | fail (e : Errno)
deriving DecidableEq, Repr

def WriteRet.ret : WriteRet → Nat → Except Errno Nat
  | .room n, count => .ok (min n count)
  | .fail e, _ => .error e

/-- One answer of `read(2)`: `n` bytes have arrived, the other end is closed, or the call fails. -/
inductive ReadRet
  | avail (n : Nat)
  | closed
  | fail (e : Errno)
deriving DecidableEq, Repr

/-- What `read(2)` of at most `count` bytes returns on a non-blocking descriptor, with `inp` not yet read. -/
def ReadRet.ret : ReadRet → List Byte → Nat → Except Errno (List Byte)
  | .avail n, inp, count => if min n inp.length = 0 then .error .eagain else .ok (inp.take (min n count))
  | .closed, _, _ => .ok []
  | .fail e, _, _ => .error e

abbrev FdSet := List RawFd

/-- One answer of `select(2)`: the descriptors ready for reading and for writing, or an error. -/
inductive SelectRet
  | ready (r w : List RawFd)
  | fail (e : Errno)
deriving DecidableEq, Repr

def fdSelect (rfds wfds : FdSet) : SelectRet → Except Errno (FdSet × FdSet)
  | .ready r w => .ok (rfds.filter (· ∈ r), wfds.filter (· ∈ w))
  | .fail e => .error e

/-- One answer of `accept(2)` and of the two calls on the new descriptor: `set_nonblocking` worked, and the peer's
process, when the kernel gives it. -/
inductive AcceptRet
  | conn (fd : RawFd) (nonblocking : Bool) (cred : Option Nat)
  | fail (e : Errno)
deriving DecidableEq, Repr

/-- Arithmetic that overflows, in a build that checks it. -/
inductive Panic
  | overflow
deriving DecidableEq, Repr

theorem WriteRet.ret_le {w : WriteRet} {count n : Nat} (h : w.ret count = .ok n) : n ≤ count := by
  cases w with
  | room m => simp only [WriteRet.ret, Except.ok.injEq] at h; omega
  | fail e => cases h

theorem WriteRet.ret_error {w : WriteRet} {count : Nat} {e : Errno} (h : w.ret count = .error e) : w = .fail e := by
  cases w with
  | room m => cases h
  | fail e' => cases h; rfl

theorem WriteRet.ret_ok {w : WriteRet} {count n : Nat} (h : w.ret count = .ok n) : ∃ m, w = .room m := by
  cases w with
  | room m => exact ⟨m, rfl⟩
  | fail e => cases h

theorem ReadRet.ret_prefix {r : ReadRet} {inp bs : List Byte} {count : Nat} (h : r.ret inp count = .ok bs) :
    bs.length ≤ count ∧ inp = bs ++ inp.drop bs.length := by
  cases r with
  | avail n =>
    simp only [ReadRet.ret] at h
    split at h
    · cases h
    · simp only [Except.ok.injEq] at h
      subst h
      refine ⟨by rw [List.length_take]; omega, ?_⟩
      conv => lhs; rw [← List.take_append_drop (min n count) inp]
      congr 1
      rw [List.length_take]
      rcases Nat.le_total (min n count) inp.length with hle | hle
      · rw [Nat.min_eq_left hle]
      · rw [Nat.min_eq_right hle, List.drop_length, List.drop_eq_nil_of_le hle]
  | closed =>
    simp only [ReadRet.ret, Except.ok.injEq] at h
    subst h
    exact ⟨by simp, rfl⟩
  | fail e => cases h

end Zatch
