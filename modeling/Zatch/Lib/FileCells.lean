import Mathlib.Data.List.Basic
/-!
# FileCells — a file as a list of cells, written at an offset

A write at an offset replaces the cells it covers.  Past the end of the file it leaves a hole, whose cells read as the zero
cell.  Writes one after the other from one offset are one write (`writeAt_writeAt`), so what a run of them leaves depends
on the offset they began at and on all they wrote (`writeAt_nil_left`).  A `Handle` is a file with the offset of a
descriptor on it; written to from its end on, a file grows by what is written (`Handle.AtEnd.write`).
-/
namespace FileCells

variable {α : Type} (z : α)

/-- What the file has before an offset, its hole filled. -/
def front (file : List α) (pos : Nat) : List α := file.take pos ++ List.replicate (pos - file.length) z

/-- A write of nothing changes nothing, wherever it is. -/
def writeAt (file : List α) (pos : Nat) (xs : List α) : List α :=
  if xs = [] then file else front z file pos ++ xs ++ file.drop (pos + xs.length)

@[simp] theorem length_front (file : List α) (pos : Nat) : (front z file pos).length = pos := by
  rw [front, List.length_append, List.length_take, List.length_replicate]
  omega

@[simp] theorem writeAt_nil (file : List α) (pos : Nat) : writeAt z file pos [] = file := rfl

theorem writeAt_of_ne_nil (file : List α) (pos : Nat) {xs : List α} (h : xs ≠ []) :
    writeAt z file pos xs = front z file pos ++ xs ++ file.drop (pos + xs.length) := if_neg h

/-- What a write leaves of an empty file: a hole up to the offset, and then what was written. -/
theorem writeAt_nil_left (pos : Nat) {xs : List α} (h : xs ≠ []) :
    writeAt z [] pos xs = List.replicate pos z ++ xs := by
  rw [writeAt_of_ne_nil z _ _ h]
  simp [front]

theorem front_append (file : List α) (pos : Nat) (xs : List α) (tail : List α) :
    front z (front z file pos ++ xs ++ tail) (pos + xs.length) = front z file pos ++ xs := by
  have hlen : (front z file pos ++ xs).length = pos + xs.length := by rw [List.length_append, length_front]
  have hfull : pos + xs.length - (front z file pos ++ xs ++ tail).length = 0 := by
    rw [List.length_append, hlen]
    omega
  rw [front, hfull, List.replicate_zero, List.append_nil, ← hlen, List.take_left]

/-- **Two writes, the second where the first ended, are one.** -/
theorem writeAt_writeAt (file : List α) (pos : Nat) (xs ys : List α) :
    writeAt z (writeAt z file pos xs) (pos + xs.length) ys = writeAt z file pos (xs ++ ys) := by
  by_cases hx : xs = []
  · rw [hx, writeAt_nil, List.length_nil, Nat.add_zero, List.nil_append]
  by_cases hy : ys = []
  · rw [hy, writeAt_nil, List.append_nil]
  have hxy : xs ++ ys ≠ [] := fun h => hx (List.append_eq_nil_iff.1 h).1
  have hlen : (front z file pos ++ xs).length = pos + xs.length := by rw [List.length_append, length_front]
  have hdrop : (front z file pos ++ xs ++ file.drop (pos + xs.length)).drop (pos + xs.length + ys.length) =
      file.drop (pos + (xs ++ ys).length) := by
    rw [← hlen, ← List.drop_drop, List.drop_left, List.drop_drop, hlen, List.length_append, Nat.add_assoc]
  rw [writeAt_of_ne_nil z _ _ hx, writeAt_of_ne_nil z _ _ hy, writeAt_of_ne_nil z _ _ hxy, front_append, hdrop]
  simp only [List.append_assoc]

/-- **Written to an empty file, what is written is what is there**, exactly when it was written at the start. -/
theorem writeAt_nil_left_eq_iff (pos : Nat) (xs : List α) : writeAt z [] pos xs = xs ↔ pos = 0 ∨ xs = [] := by
  by_cases h : xs = []
  · simp [h]
  · rw [writeAt_nil_left z pos h, or_iff_left h]
    constructor
    · intro heq
      have hlen := congrArg List.length heq
      rw [List.length_append, List.length_replicate] at hlen
      omega
    · intro hpos
      rw [hpos, List.replicate_zero, List.nil_append]

theorem writeAt_length (file xs : List α) : writeAt z file file.length xs = file ++ xs := by
  by_cases h : xs = []
  · rw [h, writeAt_nil, List.append_nil]
  · rw [writeAt_of_ne_nil z _ _ h, front, List.take_length, Nat.sub_self, List.replicate_zero, List.append_nil,
      List.drop_eq_nil_of_le (by omega), List.append_nil]

/-- An open file and the offset of its descriptor. -/
structure Handle (α : Type) where
  cells : List α
  pos : Nat
deriving DecidableEq, Repr

namespace Handle

def seek (h : Handle α) (pos : Nat) : Handle α := { h with pos := pos }

def seekEnd (h : Handle α) : Handle α := h.seek h.cells.length

/-- A read of at most `count` cells, of which it gets no more than `got`. -/
def read (h : Handle α) (count got : Nat) : List α × Handle α :=
  let xs := (h.cells.drop h.pos).take (min count got)
  (xs, h.seek (h.pos + xs.length))

/-- The file made to be so long: cut off there, or a hole added. -/
def setLen (h : Handle α) (len : Nat) : Handle α := { h with cells := front z h.cells len }

def write (h : Handle α) (xs : List α) : Handle α := ⟨writeAt z h.cells h.pos xs, h.pos + xs.length⟩

def AtEnd (h : Handle α) : Prop := h.pos = h.cells.length

@[simp] theorem seek_cells (h : Handle α) (pos : Nat) : (h.seek pos).cells = h.cells := rfl

@[simp] theorem setLen_zero_cells (h : Handle α) : (h.setLen z 0).cells = [] := by
  simp [setLen, front]

theorem AtEnd.write {h : Handle α} (hend : h.AtEnd) (xs : List α) :
    (h.write z xs).cells = h.cells ++ xs ∧ (h.write z xs).AtEnd := by
  have hpos : h.pos = h.cells.length := hend
  have hcells : (h.write z xs).cells = h.cells ++ xs := by
    rw [Handle.write, hpos, writeAt_length]
  refine ⟨hcells, ?_⟩
  show h.pos + xs.length = (h.write z xs).cells.length
  rw [hcells, List.length_append, hpos]

theorem write_write (h : Handle α) (xs ys : List α) : (h.write z xs).write z ys = h.write z (xs ++ ys) := by
  simp only [write, writeAt_writeAt, List.length_append, Nat.add_assoc]

end Handle

end FileCells
