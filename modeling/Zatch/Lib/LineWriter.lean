import Mathlib.Data.List.DropRight
/-!
# LineWriter — a writer that holds back unfinished lines

`std::io::LineWriter` over a buffer of `cap` items, every write to its descriptor succeeding: what is written goes out up
to its last end of a line, and the rest is held back until it is written over or the writer is flushed.  Nothing is lost
or changes its place (`writeAll_conserves`).
-/
namespace LineWriter

section
variable {α : Type} (cap : Nat) (ends : α → Bool)

/-- What a write put out, and what is held back after it. -/
structure Out (α : Type) where
  out : List α
  held : List α

/-- `BufWriter::write_all`: into the buffer when it fits, else the buffer goes out first, and what is as long as the buffer
goes out past it. -/
def buffer (held data : List α) : Out α :=
  if data.length ≤ cap - held.length ∧ data.length < cap then ⟨[], held ++ data⟩
  else if cap ≤ data.length then ⟨held ++ data, []⟩
  else ⟨held, data⟩

def writeAll (held data : List α) : Out α :=
  let lines := data.rdropWhile (fun x => !ends x)
  if lines = [] then buffer cap held data
  else
    let o := buffer cap [] (data.rtakeWhile (fun x => !ends x))
    ⟨held ++ lines ++ o.out, o.held⟩

theorem buffer_conserves (held data : List α) :
    (buffer cap held data).out ++ (buffer cap held data).held = held ++ data := by
  unfold buffer
  split
  · rfl
  · split
    · exact List.append_nil _
    · rfl

/-- **Nothing is lost or changes its place**: what goes out, then what is held back, is what was held, then what is new. -/
theorem writeAll_conserves (held data : List α) :
    (writeAll cap ends held data).out ++ (writeAll cap ends held data).held = held ++ data := by
  unfold writeAll
  simp only
  split
  · exact buffer_conserves cap held data
  · rw [List.append_assoc, buffer_conserves, List.nil_append, List.append_assoc, List.rdropWhile_append_rtakeWhile]

end

end LineWriter
