import Zatch.Framing
import Zatch.LogFile
/-!
# LogSessions — one session log after another on a path (`session_log.rs`)

`SessionLog::rotate` seeks, reads, truncates, rewinds and rewrites, and leaves the offset at the end, whichever of its
branches it takes; so a session's log begins with what it kept of the file it found and goes on with all that it writes
(`sessions_append`).
-/
namespace Zatch

open FileCells (Handle)

/-- What the calls of a rotation answer: which of the seeks and the truncation work, what the one `read` gets and how much
the `write_all` gets through. -/
structure RotateAns where
  sized : Bool
  sought : Bool
  got : Nat
  truncated : Bool
  rewound : Bool
  wrote : Nat
  ended : Bool
deriving DecidableEq, Repr

/-- `SessionLog::rotate`, from the seek to `offset` on. -/
def keepTail (a : RotateAns) (file : Handle Byte) (size maxSize : Nat) : Handle Byte :=
  let file := if a.sought then file.seek (size - maxSize) else file
  let (buf, file) := file.read maxSize a.got
  let file :=
    if buf.length > 0 then
      let file := if a.truncated then file.setLen 0 0 else file
      let file := if a.rewound then file.seek 0 else file
      file.write 0 (buf.take a.wrote)
    else file
  if a.ended then file.seekEnd else file

/-- `SessionLog::rotate`. -/
def SessionLog.rotate (a : RotateAns) (file : Handle Byte) (maxSize : Nat) : Handle Byte :=
  let size := if a.sized then file.cells.length else 0
  let file := if a.sized then file.seekEnd else file
  if size ≤ maxSize then file else keepTail a file size maxSize

/-- `write_all`: a write of nothing gives up, like any error but `EINTR`. -/
def writeAll (file : Handle Byte) (buf : List Byte) : List WriteRet → Handle Byte
  | [] => file
  | w :: ws =>
    if buf = [] then file
    else
      match w.ret buf.length with
      | .ok n => if n = 0 then file else writeAll (file.write 0 (buf.take n)) (buf.drop n) ws
      | .error .eintr => writeAll file buf ws
      | .error _ => file

/-- The seeks, the truncation and the writing of a rotation succeed. -/
structure RotateAns.Works (a : RotateAns) (maxSize : Nat) : Prop where
  sized : a.sized = true
  sought : a.sought = true
  truncated : a.truncated = true
  rewound : a.rewound = true
  wrote : maxSize ≤ a.wrote
  ended : a.ended = true

/-- **A tail that is kept**, as much of it as the read gets, is what the file has then, with the offset at its end. -/
theorem keepTail_eq {a : RotateAns} {maxSize : Nat} (ha : a.Works maxSize) (file : Handle Byte)
    (hlong : maxSize < file.cells.length) : keepTail a file file.cells.length maxSize =
      ⟨rotate file.cells maxSize a.got, (rotate file.cells maxSize a.got).length⟩ := by
  have hbuf : ((file.seek (file.cells.length - maxSize)).read maxSize a.got).1 =
      ((file.cells.drop (file.cells.length - maxSize)).take maxSize).take a.got := by
    rw [List.take_take, Nat.min_comm]
    rfl
  have hle : (((file.cells.drop (file.cells.length - maxSize)).take maxSize).take a.got).length ≤ a.wrote := by
    have := ha.wrote
    rw [List.length_take, List.length_take]
    omega
  unfold keepTail rotate
  simp only [ha.sought, ha.truncated, ha.rewound, ha.ended, if_true]
  rw [hbuf, if_neg (Nat.not_le.2 hlong), List.take_of_length_le hle]
  generalize ((file.cells.drop (file.cells.length - maxSize)).take maxSize).take a.got = buf
  by_cases hnil : buf = []
  · rw [if_neg (by simp [hnil]), if_pos hnil]
    rfl
  · rw [if_pos (List.length_pos_iff.2 hnil), if_neg hnil]
    have hempty : ((((file.seek (file.cells.length - maxSize)).read maxSize a.got).2.setLen 0 0).seek 0).AtEnd := by
      show 0 = _
      rw [Handle.seek_cells, Handle.setLen_zero_cells]
      rfl
    have hcells := (hempty.write 0 buf).1
    rw [Handle.seek_cells, Handle.setLen_zero_cells, List.nil_append] at hcells
    rw [Handle.seekEnd, hcells, Handle.seek, hcells]

/-- **A rotation of the session log** leaves the offset at the end, in either branch. -/
theorem SessionLog.rotate_eq {a : RotateAns} {maxSize : Nat} (ha : a.Works maxSize) (file : Handle Byte) :
    SessionLog.rotate a file maxSize =
      ⟨Zatch.rotate file.cells maxSize a.got, (Zatch.rotate file.cells maxSize a.got).length⟩ := by
  unfold SessionLog.rotate
  simp only [ha.sized, if_true]
  by_cases hle : file.cells.length ≤ maxSize
  · rw [if_pos hle, Zatch.rotate, if_pos hle]
    rfl
  · rw [if_neg hle]
    exact keepTail_eq ha file.seekEnd (Nat.lt_of_not_le hle)

theorem rotate_eq_rtake {maxSize got : Nat} (hpos : 0 < maxSize) (hgot : maxSize ≤ got) (old : List Byte) :
    rotate old maxSize got = old.rtake maxSize := by
  unfold rotate
  by_cases hle : old.length ≤ maxSize
  · rw [if_pos hle, Cyclic.rtake_of_length_le _ _ hle]
  · have hlen : (old.rtake maxSize).length = maxSize := by
      rw [Cyclic.length_rtake]
      omega
    have hbuf : ((old.drop (old.length - maxSize)).take maxSize).take got = old.rtake maxSize := by
      rw [List.take_take, Nat.min_eq_right hgot]
      exact List.take_of_length_le (Nat.le_of_eq hlen)
    rw [if_neg hle, hbuf, if_neg (fun hnil => by rw [hnil] at hlen; simp at hlen; omega)]

theorem writeAll_spec : ∀ (ws : List WriteRet) (buf : List Byte) (file : Handle Byte), (∀ w ∈ ws, w.Short) →
    buf.length ≤ WriteRet.total ws → writeAll file buf ws = file.write 0 buf
  | [], buf, file, _, hle => by
    rw [List.length_eq_zero_iff.1 (Nat.le_zero.1 hle)]
    rfl
  | w :: ws, buf, file, hs, hle => by
    have hs' : ∀ w ∈ ws, w.Short := fun w' hw' => hs w' (List.mem_cons_of_mem _ hw')
    unfold writeAll
    by_cases hne : buf = []
    · rw [if_pos hne, hne]
      rfl
    · rw [if_neg hne]
      have hlen := List.length_pos_iff.2 hne
      have hw := hs w List.mem_cons_self
      cases w with
      | room n =>
        have hn : 0 < n := hw
        rw [WriteRet.total] at hle
        simp only [WriteRet.ret]
        rw [if_neg (by omega), writeAll_spec ws _ _ hs' (by rw [List.length_drop]; omega), Handle.write_write,
          List.take_append_drop]
      | fail e =>
        obtain rfl : e = .eintr := hw
        exact writeAll_spec ws buf file hs' hle

/-- One session's log: its cap, what the calls of the rotation answer, and what is written, each piece with the answers to
its `write_all`. -/
structure LogRun where
  maxSize : Nat
  ans : RotateAns
  chunks : List (List Byte × List WriteRet)
  marker : List Byte × List WriteRet

namespace LogRun

/-- `SessionLog::open`, on a file with these contents. -/
def opened (s : LogRun) (old : List Byte) : Handle Byte := SessionLog.rotate s.ans ⟨old, 0⟩ s.maxSize

/-- `SessionLog::write` for each chunk. -/
def wrote (s : LogRun) (old : List Byte) : Handle Byte :=
  s.chunks.foldl (fun file c => writeAll file c.1 c.2) (s.opened old)

/-- `SessionLog::close`. -/
def closed (s : LogRun) (old : List Byte) : Handle Byte := writeAll (s.wrote old) s.marker.1 s.marker.2

/-- The contents of the file after sessions one after the other. -/
def contentsAfter (old : List Byte) (ss : List LogRun) : List Byte := ss.foldl (fun old s => (s.closed old).cells) old

def InPieces (c : List Byte × List WriteRet) : Prop := (∀ w ∈ c.2, w.Short) ∧ c.1.length ≤ WriteRet.total c.2

instance (c : List Byte × List WriteRet) : Decidable (InPieces c) := inferInstanceAs (Decidable (_ ∧ _))

/-- Every file operation of the session succeeds, and the read gets all that is there; a write may take several calls. -/
structure Succeeds (s : LogRun) : Prop where
  maxSize : 0 < s.maxSize
  ans : s.ans.Works s.maxSize
  got : s.maxSize ≤ s.ans.got
  chunks : ∀ c ∈ s.chunks, InPieces c
  marker : InPieces s.marker

theorem writeAll_atEnd {c : List Byte × List WriteRet} (hc : InPieces c) {file : Handle Byte} (hend : file.AtEnd) :
    (writeAll file c.1 c.2).cells = file.cells ++ c.1 ∧ (writeAll file c.1 c.2).AtEnd := by
  rw [writeAll_spec c.2 c.1 file hc.1 hc.2]
  exact hend.write 0 c.1

theorem foldl_writeAll : ∀ (cs : List (List Byte × List WriteRet)) (file : Handle Byte), (∀ c ∈ cs, InPieces c) →
    file.AtEnd → (cs.foldl (fun file c => writeAll file c.1 c.2) file).cells = file.cells ++ cs.flatMap (·.1) ∧
      (cs.foldl (fun file c => writeAll file c.1 c.2) file).AtEnd
  | [], file, _, hend => ⟨by simp, hend⟩
  | c :: cs, file, hc, hend => by
    obtain ⟨hcells, hend'⟩ := writeAll_atEnd (hc c List.mem_cons_self) hend
    have ih := foldl_writeAll cs (writeAll file c.1 c.2) (fun c' hc' => hc c' (List.mem_cons_of_mem _ hc')) hend'
    rw [hcells, List.append_assoc] at ih
    exact ih

/-- **One session** keeps the last bytes of the file, and adds to them what it writes. -/
theorem session_appends {s : LogRun} (hs : s.Succeeds) (old : List Byte) :
    (s.opened old).cells = old.rtake s.maxSize ∧
    (s.closed old).cells = old.rtake s.maxSize ++ s.chunks.flatMap (·.1) ++ s.marker.1 := by
  have hopen : s.opened old = ⟨old.rtake s.maxSize, (old.rtake s.maxSize).length⟩ := by
    rw [opened, SessionLog.rotate_eq hs.ans, rotate_eq_rtake hs.maxSize hs.got]
  have hend : (s.opened old).AtEnd := by rw [hopen]; rfl
  obtain ⟨hwrote, hend'⟩ := foldl_writeAll s.chunks (s.opened old) hs.chunks hend
  refine ⟨by rw [hopen], ?_⟩
  rw [closed, wrote, (writeAll_atEnd hs.marker hend').1, hwrote, hopen]

/-- **Sessions one after the other on one path**: each finds what the ones before it have left, keeps the last bytes of it,
as many as its cap allows, and adds what it writes and its marker, in order. -/
theorem sessions_append (old : List Byte) (ss : List LogRun) (hs : ∀ s ∈ ss, s.Succeeds) (pre : List LogRun) (s : LogRun)
    (post : List LogRun) (hss : ss = pre ++ s :: post) :
    (s.opened (contentsAfter old pre)).cells =
      (contentsAfter old pre).drop ((contentsAfter old pre).length - min (contentsAfter old pre).length s.maxSize) ∧
    contentsAfter old (pre ++ [s]) =
      (contentsAfter old pre).drop ((contentsAfter old pre).length - min (contentsAfter old pre).length s.maxSize) ++
        s.chunks.flatMap (·.1) ++ s.marker.1 := by
  have hin : s ∈ ss := by
    rw [hss]
    exact List.mem_append_right _ List.mem_cons_self
  obtain ⟨hopen, hclose⟩ := session_appends (hs s hin) (contentsAfter old pre)
  have hkept : (contentsAfter old pre).rtake s.maxSize = (contentsAfter old pre).drop
      ((contentsAfter old pre).length - min (contentsAfter old pre).length s.maxSize) := by
    rw [List.rtake]
    congr 1
    omega
  have hstep : contentsAfter old (pre ++ [s]) = (s.closed (contentsAfter old pre)).cells := by
    rw [contentsAfter, List.foldl_append]
    rfl
  rw [hstep, hopen, hclose, hkept]
  exact ⟨rfl, rfl⟩

/-- A session with a cap of three bytes, its chunk written in two pieces. -/
def small : LogRun where
  maxSize := 3
  ans := ⟨true, true, 3, true, true, 3, true⟩
  chunks := [([97, 98], [.room 1, .fail .eintr, .room 4])]
  marker := ([46], [.room 1])

theorem small_succeeds : small.Succeeds where
  maxSize := by decide
  ans := ⟨rfl, rfl, rfl, rfl, by decide, rfl⟩
  got := by decide
  chunks := by decide
  marker := by decide

/-- A file of four bytes under two such sessions: the second keeps what the first one wrote. -/
theorem sessions_append_two : contentsAfter [1, 2, 3, 4] ([small] ++ [small]) = [97, 98, 46] ++ [97, 98] ++ [46] :=
  (sessions_append [1, 2, 3, 4] [small, small]
    (fun s hs => by rw [(List.mem_pair.1 hs).elim id id]; exact small_succeeds) [small] small [] rfl).2

end LogRun

end Zatch
