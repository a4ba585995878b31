import Mathlib.Data.List.DropRight
/-!
# Cyclic — a list of cells read and written as a ring

`window cells h r` reads the `r` cells from slot `h` on, wrapping round at the end of the list; `write cells w data`
overwrites from slot `w` on, in two copies.  Reading back what was written (`window_write_self`), reading cells the
write does not reach (`window_write_apart`), and the two together for a ring that is appended to (`window_append`).
`pieces` are the lengths a window falls into where it is cut at the end of the cells.
-/
namespace Cyclic

section
variable {α : Type} [Inhabited α]

/-- The `r` cells of the ring from slot `h` on. -/
def window (cells : List α) (h r : Nat) : List α :=
  (List.range r).map (fun i => cells.getD ((h + i) % cells.length) default)

def splice (cells : List α) (w : Nat) (data : List α) : List α :=
  cells.take w ++ data ++ cells.drop (w + data.length)

/-- Overwriting the ring from slot `w` on: one copy up to the end of the cells, and the rest at their front. -/
def write (cells : List α) (w : Nat) (data : List α) : List α :=
  splice (splice cells w (data.take (cells.length - w))) 0 (data.drop (cells.length - w))

/-! ## Windows -/

@[simp] theorem length_window (cells : List α) (h r : Nat) : (window cells h r).length = r := by
  simp [window]

theorem getElem?_window (cells : List α) (h r i : Nat) (hc : 0 < cells.length) (hi : i < r) :
    (window cells h r)[i]? = cells[(h + i) % cells.length]? := by
  have hlt : (h + i) % cells.length < cells.length := Nat.mod_lt _ hc
  simp [window, hi, List.getElem?_eq_getElem hlt]

@[simp] theorem window_zero (cells : List α) (h : Nat) : window cells h 0 = [] := rfl

theorem window_add (cells : List α) (h r s : Nat) :
    window cells h (r + s) = window cells h r ++ window cells (h + r) s := by
  simp only [window, List.range_add, List.map_append, List.map_map, Function.comp_def, Nat.add_assoc]

theorem window_mod (cells : List α) (h r : Nat) : window cells (h % cells.length) r = window cells h r := by
  simp only [window, Nat.mod_add_mod]

theorem window_of_mod_eq {cells : List α} {h h' : Nat} (r : Nat) (hh : h % cells.length = h' % cells.length) :
    window cells h r = window cells h' r := by
  rw [← window_mod, hh, window_mod]

theorem window_congr {cells cells' : List α} (h h' r : Nat) (hc : 0 < cells.length) (hc' : 0 < cells'.length)
    (hcell : ∀ i, i < r → cells[(h + i) % cells.length]? = cells'[(h' + i) % cells'.length]?) :
    window cells h r = window cells' h' r := by
  apply List.ext_getElem?
  intro i
  by_cases hi : i < r
  · rw [getElem?_window cells h r i hc hi, getElem?_window cells' h' r i hc' hi, hcell i hi]
  · simp [window, hi]

theorem window_eq_slice (cells : List α) (h r : Nat) (hr : h + r ≤ cells.length) :
    window cells h r = (cells.drop h).take r := by
  apply List.ext_getElem?
  intro i
  by_cases hi : i < r
  · rw [getElem?_window cells h r i (by omega) hi, Nat.mod_eq_of_lt (by omega), List.getElem?_take_of_lt hi,
      List.getElem?_drop]
  · rw [List.getElem?_eq_none (by simpa using hi), List.getElem?_eq_none (by simp; omega)]

theorem drop_window (cells : List α) (h r k : Nat) (hk : k ≤ r) :
    (window cells h r).drop k = window cells (h + k) (r - k) := by
  obtain ⟨s, rfl⟩ := Nat.exists_eq_add_of_le hk
  rw [window_add, List.drop_left' (length_window cells h k), Nat.add_sub_cancel_left]

/-! ## Writing -/

omit [Inhabited α] in
theorem length_splice (cells : List α) (w : Nat) (data : List α) (h : w + data.length ≤ cells.length) :
    (splice cells w data).length = cells.length := by
  simp [splice]; omega

omit [Inhabited α] in
theorem getElem?_splice (cells : List α) (w : Nat) (data : List α) (h : w + data.length ≤ cells.length) (p : Nat) :
    (splice cells w data)[p]? = if w ≤ p ∧ p < w + data.length then data[p - w]? else cells[p]? := by
  have hw : (cells.take w).length = w := by simp; omega
  unfold splice
  rw [List.append_assoc]
  by_cases h1 : p < w
  · rw [List.getElem?_append_left (by omega), List.getElem?_take_of_lt h1, if_neg (by omega)]
  · rw [List.getElem?_append_right (by omega), hw]
    by_cases h2 : p < w + data.length
    · rw [List.getElem?_append_left (by omega), if_pos ⟨by omega, h2⟩]
    · rw [List.getElem?_append_right (by omega), List.getElem?_drop, if_neg (by omega)]
      congr 1; omega

section
variable {cells data : List α} {w : Nat} (hw : w < cells.length) (hd : data.length ≤ cells.length)
include hw hd

omit [Inhabited α] in
theorem length_write : (write cells w data).length = cells.length := by
  have h1 : (splice cells w (data.take (cells.length - w))).length = cells.length :=
    length_splice _ _ _ (by simp; omega)
  unfold write
  rw [length_splice _ _ _ (by rw [h1]; simp; omega), h1]

omit [Inhabited α] in
/-- **The cells after a write**, counted from the slot it starts at: its data, then the old cells. -/
theorem getElem?_write (j : Nat) (hj : j < cells.length) :
    (write cells w data)[(w + j) % cells.length]? =
      if j < data.length then data[j]? else cells[(w + j) % cells.length]? := by
  have h1 : (splice cells w (data.take (cells.length - w))).length = cells.length :=
    length_splice _ _ _ (by simp; omega)
  unfold write
  rw [getElem?_splice _ _ _ (by rw [h1]; simp; omega), getElem?_splice _ _ _ (by simp; omega)]
  simp only [List.length_take, List.length_drop, Nat.zero_le, true_and, Nat.zero_add, Nat.sub_zero,
    List.getElem?_drop]
  by_cases hlt : w + j < cells.length
  · -- before the end of the cells: the first copy
    rw [Nat.mod_eq_of_lt hlt, if_neg (by omega)]
    by_cases hjd : j < data.length
    · rw [if_pos (by omega), if_pos hjd, Nat.add_sub_cancel_left, List.getElem?_take_of_lt (by omega)]
    · rw [if_neg (by omega), if_neg hjd]
  · -- past the end of the cells: the second copy
    have hm : (w + j) % cells.length = w + j - cells.length := by
      rw [Nat.mod_eq_sub_mod (by omega), Nat.mod_eq_of_lt (by omega)]
    rw [hm]
    by_cases hjd : j < data.length
    · rw [if_pos (by omega), if_pos hjd]
      congr 1; omega
    · rw [if_neg (by omega), if_neg (by omega), if_neg hjd]

/-- **Reading back what was written.** -/
theorem window_write_self : window (write cells w data) w data.length = data := by
  have hl := length_write hw hd
  apply List.ext_getElem?
  intro i
  by_cases hi : i < data.length
  · rw [getElem?_window _ _ _ _ (by omega) hi, hl, getElem?_write hw hd i (by omega), if_pos hi]
  · simp [window, hi]

/-- **A window the write does not reach**: it starts `g` slots after the write, past its data, and ends before the
write comes round again. -/
theorem window_write_apart (g r : Nat) (hg : data.length ≤ g) (hr : g + r ≤ cells.length) :
    window (write cells w data) (w + g) r = window cells (w + g) r := by
  have hl := length_write hw hd
  refine window_congr _ _ _ (by omega) (by omega) (fun i hi => ?_)
  rw [hl, Nat.add_assoc, getElem?_write hw hd (g + i) (by omega), if_neg (by omega)]

/-- **A window with no slot that is written.** -/
theorem window_write_of_disjoint (h r : Nat)
    (hdis : ∀ j, j < data.length → ∀ k, k < r → (w + j) % cells.length ≠ (h + k) % cells.length) :
    window (write cells w data) h r = window cells h r := by
  have hl := length_write hw hd
  refine window_congr _ _ _ (by omega) (by omega) (fun k hk => ?_)
  have hpos : 0 < cells.length := by omega
  -- the slot, counted from the one the write starts at
  obtain ⟨j, hj, hslot⟩ : ∃ j, j < cells.length ∧ (w + j) % cells.length = (h + k) % cells.length := by
    refine ⟨((h + k) % cells.length + (cells.length - w)) % cells.length, Nat.mod_lt _ hpos, ?_⟩
    rw [Nat.add_mod_mod,
      show w + ((h + k) % cells.length + (cells.length - w)) = (h + k) % cells.length + cells.length by omega,
      Nat.add_mod_right, Nat.mod_mod]
  rw [hl, ← hslot, getElem?_write hw hd j hj, if_neg (fun hlt => hdis j hlt k hk hslot)]

end

/-- **Appending to a ring**: with `len` cells in use from slot `h` on, writing after them and moving the start past
what was overwritten keeps the latest cells. -/
theorem window_append (cells data : List α) (h len : Nat) (hc : 0 < cells.length) (hlen : len ≤ cells.length)
    (hd : data.length ≤ cells.length) :
    window (write cells ((h + len) % cells.length) data) (h + (len + data.length - cells.length))
        (min (len + data.length) cells.length)
      = (window cells h len ++ data).rtake cells.length := by
  have hw : (h + len) % cells.length < cells.length := Nat.mod_lt _ hc
  have hl := length_write hw hd
  -- the new window is what is left of the old one and then the data
  generalize hs : len + data.length - cells.length = s
  have hsl : s ≤ len := by omega
  have hmin : min (len + data.length) cells.length = (len - s) + data.length := by omega
  have hmod : (h + s) % cells.length = ((h + len) % cells.length + (cells.length - (len - s))) % cells.length := by
    rw [Nat.mod_add_mod, show h + len + (cells.length - (len - s)) = (h + s) + cells.length by omega,
      Nat.add_mod_right]
  have hold : window (write cells ((h + len) % cells.length) data) (h + s) (len - s) = window cells (h + s) (len - s) :=
    calc window (write cells ((h + len) % cells.length) data) (h + s) (len - s)
      _ = window (write cells ((h + len) % cells.length) data)
            ((h + len) % cells.length + (cells.length - (len - s))) (len - s) :=
          window_of_mod_eq _ (by rw [hl]; exact hmod)
      _ = window cells ((h + len) % cells.length + (cells.length - (len - s))) (len - s) :=
          window_write_apart hw hd _ _ (by omega) (by omega)
      _ = window cells (h + s) (len - s) := window_of_mod_eq _ hmod.symm
  have hnew : window (write cells ((h + len) % cells.length) data) (h + s + (len - s)) data.length = data := by
    rw [show h + s + (len - s) = h + len by omega, window_of_mod_eq data.length (by rw [hl, Nat.mod_mod])]
    exact window_write_self hw hd
  rw [hmin, window_add, hold, hnew, List.rtake, List.length_append, length_window, hs, List.drop_append,
    length_window, drop_window _ _ _ _ hsl, show s - len = 0 by omega, List.drop_zero]

end

/-! ## The pieces of a window -/

/-- The lengths of the pieces a window of `r` cells from slot `h` on falls into, cut at the end of a ring of `size` cells. -/
def pieces (size h r : Nat) : List Nat :=
  if h < size ∧ 0 < r then min (size - h) r :: pieces size 0 (r - min (size - h) r) else []
termination_by r
decreasing_by omega

@[simp] theorem pieces_zero (size h : Nat) : pieces size h 0 = [] := by
  rw [pieces, if_neg (fun hr => Nat.lt_irrefl 0 hr.2)]

theorem pieces_cons {size h r : Nat} (hh : h < size) (hr : 0 < r) :
    pieces size h r = min (size - h) r :: pieces size 0 (r - min (size - h) r) := by
  rw [pieces, if_pos ⟨hh, hr⟩]

example : pieces 8 6 5 = [2, 3] := by simp [pieces_cons]

theorem pieces_eq_nil_iff {size h r : Nat} (hh : h < size) : pieces size h r = [] ↔ r = 0 := by
  constructor
  · intro hnil
    by_contra hr
    rw [pieces_cons hh (Nat.pos_of_ne_zero hr)] at hnil
    cases hnil
  · rintro rfl
    exact pieces_zero size h

theorem pos_of_mem_pieces (size : Nat) : ∀ (r h : Nat), ∀ p ∈ pieces size h r, 0 < p := by
  intro r
  induction r using Nat.strong_induction_on with
  | h r ih =>
    intro h p hp
    by_cases hin : h < size ∧ 0 < r
    · rw [pieces_cons hin.1 hin.2, List.mem_cons] at hp
      rcases hp with rfl | hp
      · omega
      · exact ih _ (by omega) 0 p hp
    · rw [pieces, if_neg hin] at hp
      cases hp

/-! ## The end of a list -/

section
variable {α : Type}

theorem rtake_of_length_le (l : List α) (n : Nat) (h : l.length ≤ n) : l.rtake n = l := by
  rw [List.rtake, Nat.sub_eq_zero_of_le h, List.drop_zero]

theorem length_rtake (l : List α) (n : Nat) : (l.rtake n).length = min l.length n := by
  rw [List.rtake, List.length_drop]; omega

/-- **The latest `n` of an appended list need only the latest `n` of the first.** -/
theorem rtake_rtake_append (l m : List α) (n : Nat) : (l.rtake n ++ m).rtake n = (l ++ m).rtake n := by
  rcases Nat.le_total l.length n with h | h
  · rw [rtake_of_length_le l n h]
  · have hl : (l.rtake n).length = n := by rw [length_rtake]; omega
    simp only [List.rtake, List.length_append, List.drop_append] at hl ⊢
    rw [List.drop_drop, hl]
    congr 1
    · congr 1; omega
    · congr 1; omega

/-- **A list at least `n` long alone gives the latest `n`.** -/
theorem rtake_append_of_le (l m : List α) (n : Nat) (h : n ≤ m.length) : (l ++ m).rtake n = m.rtake n := by
  simp only [List.rtake, List.length_append, List.drop_append]
  rw [List.drop_eq_nil_of_le (by omega), List.nil_append]
  congr 1; omega

end

end Cyclic
