import Zatch.Daemon
import Zatch.Lib.FileCells
import Zatch.Lib.Machine
/-!
# LogFile — the session log's file under the daemon and `clear` (`session_log.rs`, `cmd_clear`)

The daemon opens the log without `O_APPEND` and writes at its own offset, which `cmd_clear`, truncating the file from
another process, does not move.  So a run of the two leaves in the file one write of all that was written after the last
clear, at the offset the daemon had then (`file_of_run`): what was written, exactly when that offset was zero
(`log_after_clear_iff`).
-/
namespace Zatch

open Machine (run Along)
open FileCells (writeAt)

/-- The log's file, the offset of the daemon's descriptor on it, the bytes of the `write_all` it is in, and whether
`SessionLog::close` was called. -/
structure LogFile where
  file : List Byte
  pos : Nat
  pending : List Byte
  closed : Bool
deriving DecidableEq, Repr

/-- `SessionLog::rotate`, of which the one `read` gets `got` bytes. -/
def rotate (old : List Byte) (maxSize got : Nat) : List Byte :=
  if old.length ≤ maxSize then old
  else
    let buf := ((old.drop (old.length - maxSize)).take maxSize).take got
    if buf = [] then old else buf

/-- `SessionLog::open` leaves the offset at the end. -/
def LogFile.opened (old : List Byte) (maxSize got : Nat) : LogFile where
  file := rotate old maxSize got
  pos := (rotate old maxSize got).length
  pending := []
  closed := false

namespace LogFile

/-- One step of the daemon with its log, or a `clear`. -/
inductive LogOp
  /-- `SessionLog::write` begins its `write_all` -/
  | write (data : List Byte)
  /-- `SessionLog::close` begins its `write_all`, the last -/
  | close (marker : List Byte)
  /-- one `write(2)` of a `write_all` -/
  | put (w : WriteRet)
  /-- `cmd_clear` opens the file with `truncate` -/
  | clear
deriving DecidableEq

/-- Each step, with what it writes. -/
def step (s : LogFile) : LogOp → LogFile × List Byte
  | .write data => if s.closed = true ∨ s.pending ≠ [] then (s, []) else ({ s with pending := data }, [])
  | .close marker =>
    if s.closed = true ∨ s.pending ≠ [] then (s, []) else ({ s with pending := marker, closed := true }, [])
  | .put w =>
    match w.ret s.pending.length with
    | .ok n =>
      ({ s with
          file := writeAt 0 s.file s.pos (s.pending.take n)
          pos := s.pos + (s.pending.take n).length
          pending := if n = 0 then [] else s.pending.drop n },
        s.pending.take n)
    | .error .eintr => (s, [])
    | .error _ => ({ s with pending := [] }, [])
  | .clear => ({ s with file := [] }, [])

/-- A `SessionLog::write` that the file takes in one go. -/
def writes (data : List Byte) : List LogOp := [.write data, .put (.room data.length)]

theorem run_writes (file : List Byte) (pos : Nat) (data : List Byte) :
    run step ⟨file, pos, [], false⟩ (writes data) = (⟨writeAt 0 file pos data, pos + data.length, [], false⟩, data) := by
  simp [writes, Machine.run_cons, step, WriteRet.ret]

/-- What a step that is no `clear` does to the file: one write at the offset, which moves past it. -/
theorem step_file (s : LogFile) {op : LogOp} (hop : op ≠ .clear) :
    (s.step op).1.file = writeAt 0 s.file s.pos (s.step op).2 ∧ (s.step op).1.pos = s.pos + (s.step op).2.length := by
  cases op with
  | write data => simp only [step]; split <;> exact ⟨rfl, rfl⟩
  | close marker => simp only [step]; split <;> exact ⟨rfl, rfl⟩
  | put w => simp only [step]; split <;> exact ⟨rfl, rfl⟩
  | clear => exact absurd rfl hop

/-- **A run without a `clear` is one write**, at the offset it began at. -/
theorem file_of_run : ∀ (ops : List LogOp) (s : LogFile), .clear ∉ ops →
    (run step s ops).1.file = writeAt 0 s.file s.pos (run step s ops).2 ∧
    (run step s ops).1.pos = s.pos + (run step s ops).2.length
  | [], _, _ => ⟨rfl, rfl⟩
  | op :: ops, s, h => by
    rw [List.mem_cons, not_or] at h
    obtain ⟨hfile, hpos⟩ := step_file s (Ne.symm h.1)
    obtain ⟨ihfile, ihpos⟩ := file_of_run ops (s.step op).1 h.2
    rw [Machine.run_cons]
    constructor
    · rw [ihfile, hfile, hpos, FileCells.writeAt_writeAt]
    · rw [ihpos, hpos, List.length_append, Nat.add_assoc]

theorem step_pos (s : LogFile) (op : LogOp) : (s.step op).1.pos = s.pos + (s.step op).2.length := by
  by_cases h : op = .clear
  · rw [h]
    rfl
  · exact (step_file s h).2

/-- A `clear` does not move the offset, so it counts everything written. -/
theorem pos_of_run : ∀ (ops : List LogOp) (s : LogFile), (run step s ops).1.pos = s.pos + (run step s ops).2.length
  | [], _ => rfl
  | op :: ops, s => by
    rw [Machine.run_cons, List.length_append, ← Nat.add_assoc, ← step_pos, pos_of_run ops]

theorem opened_pos_eq_zero_iff (old : List Byte) (maxSize got : Nat) : (opened old maxSize got).pos = 0 ↔ old = [] := by
  show (rotate old maxSize got).length = 0 ↔ old = []
  rw [List.length_eq_zero_iff]
  unfold rotate
  by_cases hle : old.length ≤ maxSize
  · rw [if_pos hle]
  · rw [if_neg hle]
    by_cases hbuf : ((old.drop (old.length - maxSize)).take maxSize).take got = []
    · simp only [hbuf, if_true]
    · simp only [hbuf, if_false, false_iff]
      intro hold
      rw [hold] at hle
      exact hle (Nat.zero_le _)

/-- **The log after the last `clear`**, in every run of a daemon with its log and any number of clears: it is what was
written after that clear exactly when nothing was, or nothing had come before it, neither in the file the daemon opened
nor written since. -/
theorem log_after_clear_iff (old : List Byte) (maxSize got : Nat) (pre post : List LogOp) (hpost : .clear ∉ post) :
    (run step (opened old maxSize got) (pre ++ .clear :: post)).1.file =
        (run step (run step (opened old maxSize got) (pre ++ [.clear])).1 post).2 ↔
      (old = [] ∧ (run step (opened old maxSize got) pre).2 = []) ∨
        (run step (run step (opened old maxSize got) (pre ++ [.clear])).1 post).2 = [] := by
  have hsplit : pre ++ .clear :: post = (pre ++ [.clear]) ++ post := by rw [List.append_assoc]; rfl
  have hrun := @Machine.run_append _ _ _ step pre [.clear] (opened old maxSize got)
  have hempty : (run step (opened old maxSize got) (pre ++ [.clear])).1.file = [] := by
    rw [hrun, Machine.run_singleton]
    rfl
  have hpos : (run step (opened old maxSize got) (pre ++ [.clear])).1.pos =
      (opened old maxSize got).pos + (run step (opened old maxSize got) pre).2.length := by
    rw [hrun, Machine.run_singleton]
    exact pos_of_run pre _
  have hzero : (run step (opened old maxSize got) (pre ++ [.clear])).1.pos = 0 ↔
      old = [] ∧ (run step (opened old maxSize got) pre).2 = [] := by
    rw [hpos, Nat.add_eq_zero_iff, opened_pos_eq_zero_iff, List.length_eq_zero_iff]
  rw [hsplit, Machine.run_append]
  simp only
  rw [(file_of_run post _ hpost).1, hempty, FileCells.writeAt_nil_left_eq_iff, hzero]

theorem first_writes_after_clear :
    (run step (opened [] 64 0) ([] ++ .clear :: writes [104, 105])).1.file =
      (run step (run step (opened [] 64 0) ([] ++ [.clear])).1 (writes [104, 105])).2 :=
  (log_after_clear_iff [] 64 0 [] (writes [104, 105]) (by decide)).2 (.inl ⟨rfl, rfl⟩)

/-- Two bytes are written, the log is cleared, and the next byte comes after a hole of two. -/
theorem log_after_clear_has_hole : ¬ ∀ (old : List Byte) (maxSize got : Nat) (pre post : List LogOp), .clear ∉ post →
    (run step (opened old maxSize got) (pre ++ .clear :: post)).1.file =
      (run step (run step (opened old maxSize got) (pre ++ [.clear])).1 post).2 := by
  intro h
  have hole := h [] 64 0 (writes [97, 98]) (writes [99]) (by decide)
  revert hole
  decide

end LogFile

end Zatch
