import Mathlib.Data.List.Forall2
/-!
# Lines — texts of lines, and what is left when lines are cut short

A line ends with a mark that it has nowhere else.  A text of lines that have each been cut short somewhere, or nowhere, and
that reads as the same number of lines, has been cut nowhere (`cut_lines`).
-/
namespace Lines

section
variable {α : Type} {e : α}

/-- A line, with the mark at its end. -/
def IsLine (e : α) (l : List α) : Prop := ∃ body, l = body ++ [e] ∧ e ∉ body

theorem IsLine.prefix_cases {c l : List α} (hl : IsLine e l) (h : c <+: l) : c = l ∨ e ∉ c := by
  obtain ⟨body, rfl, hbody⟩ := hl
  rcases List.prefix_concat_iff.1 h with h | h
  · exact .inl h
  · exact .inr (fun hmem => hbody (h.subset hmem))

/-- Two texts that are one begin with the same line. -/
theorem IsLine.append_inj {l l' xs ys : List α} (hl : IsLine e l) (hl' : IsLine e l') (h : l ++ xs = l' ++ ys) :
    l = l' ∧ xs = ys := by
  obtain ⟨body, rfl, hbody⟩ := hl
  obtain ⟨body', rfl, hbody'⟩ := hl'
  rw [List.append_assoc, List.append_assoc] at h
  have hsame : body = body' := by
    rcases List.append_eq_append_iff.1 h with ⟨more, rfl, hmore⟩ | ⟨more, rfl, hmore⟩
    · cases more with
      | nil => exact (List.append_nil _).symm
      | cons x more =>
        obtain rfl := (List.cons.inj hmore).1
        exact absurd (List.mem_append_right _ List.mem_cons_self) hbody'
    · cases more with
      | nil => exact List.append_nil _
      | cons x more =>
        obtain rfl := (List.cons.inj hmore).1
        exact absurd (List.mem_append_right _ List.mem_cons_self) hbody
  subst hsame
  exact ⟨rfl, (List.cons.inj (List.append_cancel_left h)).2⟩

/-- A text that begins a cut one is cut too. -/
theorem cut_beginning {cuts lines : List (List α)} (hcut : List.Forall₂ (· <+: ·) cuts lines) :
    ∀ {out : List α}, out <+: cuts.flatten → ∃ cuts', List.Forall₂ (· <+: ·) cuts' lines ∧ out = cuts'.flatten := by
  induction hcut with
  | nil => exact fun h => ⟨[], .nil, List.prefix_nil.1 h⟩
  | @cons c l cuts lines hc hrest ih =>
    intro out h
    rw [List.flatten_cons] at h
    rcases List.prefix_or_prefix_of_prefix h (List.prefix_append c cuts.flatten) with hout | ⟨rest, rfl⟩
    · refine ⟨out :: lines.map (fun _ => []), .cons (hout.trans hc) ?_, ?_⟩
      · exact List.forall₂_map_left_iff.2 (List.forall₂_same.2 (fun x _ => List.nil_prefix))
      · have hnil : (lines.map (fun _ => ([] : List α))).flatten = [] := by simp
        rw [List.flatten_cons, hnil, List.append_nil]
    · obtain ⟨cuts', hcuts', rfl⟩ := ih ((List.prefix_append_right_inj c).1 h)
      exact ⟨c :: cuts', .cons hc hcuts', rfl⟩

end

section
variable {α : Type} [DecidableEq α] {e : α}

theorem IsLine.count {l : List α} (hl : IsLine e l) : l.count e = 1 := by
  obtain ⟨body, rfl, hbody⟩ := hl
  rw [List.count_append, List.count_eq_zero.2 hbody, List.count_singleton_self]

theorem count_lines {lines : List (List α)} (h : ∀ l ∈ lines, IsLine e l) : lines.flatten.count e = lines.length := by
  induction lines with
  | nil => rfl
  | cons l lines ih =>
    rw [List.flatten_cons, List.count_append, (h l List.mem_cons_self).count,
      ih (fun x hx => h x (List.mem_cons_of_mem _ hx)), List.length_cons]
    omega

/-- **A text of lines is read back** line by line. -/
theorem flatten_lines_inj {lines lines' : List (List α)} (h : ∀ l ∈ lines, IsLine e l) (h' : ∀ l ∈ lines', IsLine e l)
    (heq : lines.flatten = lines'.flatten) : lines = lines' := by
  induction lines generalizing lines' with
  | nil =>
    have hlen := count_lines h'
    rw [← heq] at hlen
    exact (List.length_eq_zero_iff.1 hlen.symm).symm
  | cons l lines ih =>
    cases lines' with
    | nil =>
      have hlen := count_lines h
      rw [heq] at hlen
      cases hlen
    | cons l' lines' =>
      rw [List.flatten_cons, List.flatten_cons] at heq
      obtain ⟨rfl, hrest⟩ := (h l List.mem_cons_self).append_inj (h' l' List.mem_cons_self) heq
      rw [ih (fun x hx => h x (List.mem_cons_of_mem _ hx)) (fun x hx => h' x (List.mem_cons_of_mem _ hx)) hrest]

theorem count_cut_le {cuts lines : List (List α)} (hcut : List.Forall₂ (· <+: ·) cuts lines)
    (h : ∀ l ∈ lines, IsLine e l) : cuts.flatten.count e ≤ lines.length := by
  induction hcut with
  | nil => exact Nat.le_refl _
  | @cons c l cuts lines hc _ ih =>
    have hcount := hc.sublist.count_le e
    have htail := ih (fun x hx => h x (List.mem_cons_of_mem _ hx))
    rw [(h l List.mem_cons_self).count] at hcount
    rw [List.flatten_cons, List.count_append, List.length_cons]
    omega

/-- **Lines that have been cut** and read as as many lines are those lines. -/
theorem cut_lines {cuts lines : List (List α)} (hcut : List.Forall₂ (· <+: ·) cuts lines) :
    ∀ {lines' : List (List α)}, (∀ l ∈ lines, IsLine e l) → (∀ l ∈ lines', IsLine e l) →
      lines.length = lines'.length → cuts.flatten = lines'.flatten → lines = lines' := by
  induction hcut with
  | nil =>
    intro lines' _ _ hlen _
    exact (List.length_eq_zero_iff.1 hlen.symm).symm
  | @cons c l cuts lines hc hrest ih =>
    intro lines' h h' hlen heq
    cases lines' with
    | nil => cases hlen
    | cons l' lines' =>
      have hl := h l List.mem_cons_self
      have hlines : ∀ x ∈ lines, IsLine e x := fun x hx => h x (List.mem_cons_of_mem _ hx)
      have hlines' : ∀ x ∈ lines', IsLine e x := fun x hx => h' x (List.mem_cons_of_mem _ hx)
      rcases hl.prefix_cases hc with rfl | hnot
      · rw [List.flatten_cons, List.flatten_cons] at heq
        obtain ⟨rfl, hflat⟩ := hl.append_inj (h' l' List.mem_cons_self) heq
        rw [ih hlines hlines' (Nat.succ.inj hlen) hflat]
      · -- a line that is cut leaves too few marks
        have hmany := count_lines h'
        have hfew := count_cut_le hrest hlines
        rw [← heq, List.flatten_cons, List.count_append, List.count_eq_zero.2 hnot] at hmany
        simp only [List.length_cons] at hlen hmany
        omega

end

end Lines
