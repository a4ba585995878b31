import Mathlib.Data.Set.Insert
import Mathlib.Data.List.Induction
import Mathlib.Data.List.Nodup
import Mathlib.Data.List.Perm.Basic
/-!
# Sweep — taking items out of a set, one after the other

A sweep goes once through a list of items.  An item that is hit takes some others with it out of the set, itself among
them or not, and may leave a note in it; whether an item is hit may depend on what is in the set when the sweep comes to
it.  Where the hits are the same whenever they are looked at, what a sweep leaves is `swept`, whatever the order
(`sweep_of_steady`).

Of the items that stay only with a keeper, the ones without are hit.  A keeper may be taken itself, before the items it
keeps are looked at or after: where that cannot happen it is calm, and a sweep steady (`Calm.steady`), and where it can,
two orders leave different items (`exists_orders`).
-/
namespace Sweep

structure Rule (α : Type) where
  hit : Set α → α → Prop
  takes : α → Set α
  /-- the items that leave the note when they are hit -/
  tells : α → Prop
  note : α
  note_stays : ∀ s x, hit s x → note ∉ takes x

namespace Rule

variable {α : Type} (r : Rule α)

def took (s : Set α) (x : α) : Set α := {y | (y ∈ s ∧ y ∉ r.takes x) ∨ (y = r.note ∧ r.tells x)}

open Classical in
noncomputable def step (s : Set α) (x : α) : Set α := if r.hit s x then r.took s x else s

noncomputable def sweep (s : Set α) (l : List α) : Set α := l.foldl r.step s

/-- What is left when every item of `t` that is hit in `s` has been taken. -/
def swept (s t : Set α) : Set α :=
  {y | (y ∈ s ∧ ¬ ∃ x ∈ t, r.hit s x ∧ y ∈ r.takes x) ∨ (y = r.note ∧ ∃ x ∈ t, r.hit s x ∧ r.tells x)}

variable {r} {s t : Set α} {x y : α} {l : List α}

theorem step_of_hit (h : r.hit s x) : r.step s x = r.took s x := if_pos h

theorem step_of_not_hit (h : ¬ r.hit s x) : r.step s x = s := if_neg h

theorem sweep_cons (r : Rule α) (s : Set α) (x : α) (l : List α) : r.sweep s (x :: l) = r.sweep (r.step s x) l := rfl

theorem sweep_concat (r : Rule α) (s : Set α) (l : List α) (x : α) : r.sweep s (l ++ [x]) = r.step (r.sweep s l) x := by
  rw [sweep, List.foldl_append]
  rfl

@[simp] theorem swept_empty (r : Rule α) (s : Set α) : r.swept s ∅ = s := by
  ext y
  simp [swept]

theorem swept_insert_of_hit (h : r.hit s x) (t : Set α) : r.swept s (insert x t) = r.took (r.swept s t) x := by
  have hnote := r.note_stays s x h
  ext y
  simp only [swept, took, Set.mem_ofPred_eq, Set.exists_mem_insert, h, true_and, not_or]
  constructor
  · rintro (⟨hy, hx, ht⟩ | ⟨rfl, hx | ht⟩)
    · exact .inl ⟨.inl ⟨hy, ht⟩, hx⟩
    · exact .inr ⟨rfl, hx⟩
    · exact .inl ⟨.inr ⟨rfl, ht⟩, hnote⟩
  · rintro (⟨⟨hy, ht⟩ | ⟨rfl, ht⟩, hx⟩ | ⟨rfl, hx⟩)
    · exact .inl ⟨hy, hx, ht⟩
    · exact .inr ⟨rfl, .inr ht⟩
    · exact .inr ⟨rfl, .inl hx⟩

theorem swept_insert_of_not_hit (h : ¬ r.hit s x) (t : Set α) : r.swept s (insert x t) = r.swept s t := by
  ext y
  simp only [swept, Set.mem_ofPred_eq, Set.exists_mem_insert, h, false_and, false_or]

/-- Only the items that are hit count. -/
theorem swept_congr {t' : Set α} (h : ∀ x, r.hit s x → (x ∈ t ↔ x ∈ t')) : r.swept s t = r.swept s t' := by
  have hex : ∀ P : α → Prop, (∃ x ∈ t, r.hit s x ∧ P x) ↔ ∃ x ∈ t', r.hit s x ∧ P x := by
    intro P
    exact exists_congr (fun x => and_congr_left (fun hx => h x hx.1))
  ext y
  simp only [swept, Set.mem_ofPred_eq, hex]

theorem setOf_mem_concat (l : List α) (x : α) : {y | y ∈ l ++ [x]} = insert x {y | y ∈ l} := by
  ext y
  rw [Set.mem_ofPred_eq, List.mem_append, List.mem_singleton, Set.mem_insert_iff, Set.mem_ofPred_eq, or_comm]

/-- Taking others does not change whether an item is hit. -/
def Steady (r : Rule α) (s t : Set α) : Prop :=
  ∀ x ∈ t, ∀ t' ⊆ t, x ∉ t' → (r.hit (r.swept s t') x ↔ r.hit s x)

/-- **What a steady sweep leaves**, whatever the order. -/
theorem sweep_of_steady : ∀ {l : List α}, l.Nodup → r.Steady s {x | x ∈ l} → r.sweep s l = r.swept s {x | x ∈ l} := by
  intro l
  induction l using List.reverseRecOn with
  | nil =>
    intro _ _
    simp [sweep]
  | append_singleton l x ih =>
    intro hnodup hsteady
    rw [setOf_mem_concat] at hsteady ⊢
    rw [← List.concat_eq_append, List.nodup_concat] at hnodup
    obtain ⟨hx, hl⟩ := hnodup
    have hrest : r.Steady s {y | y ∈ l} := fun y hy t' ht' hyt' =>
      hsteady y (Set.mem_insert_of_mem x hy) t' (ht'.trans (Set.subset_insert _ _)) hyt'
    rw [sweep_concat, ih hl hrest]
    have hhit := hsteady x (Set.mem_insert x _) {y | y ∈ l} (Set.subset_insert _ _) hx
    by_cases h : r.hit s x
    · rw [step_of_hit (hhit.2 h), swept_insert_of_hit h]
    · rw [step_of_not_hit (fun h' => h (hhit.1 h')), swept_insert_of_not_hit h]

end Rule

/-- Items of which some stay only with a keeper. -/
structure Kept (α : Type) where
  needy : α → Prop
  keeper : α → α
  tells : α → Prop
  note : α
  note_stays : ¬ needy note

namespace Kept

variable {α : Type} (k : Kept α)

/-- The item has lost its keeper. -/
def Stray (s : Set α) (x : α) : Prop := k.needy x ∧ k.keeper x ∉ s

/-- Strays are taken, each by itself. -/
def rule : Rule α where
  hit := k.Stray
  takes x := {x}
  tells := k.tells
  note := k.note
  note_stays := by
    rintro s x ⟨hx, -⟩ rfl
    exact k.note_stays hx

/-- No item has a stray for its keeper, and none that is a stray the note that another's taking leaves. -/
structure Calm (s t : Set α) : Prop where
  keeper : ∀ x ∈ t, ∀ y ∈ t, k.needy x → k.Stray s y → k.keeper x ≠ y
  note : ∀ x ∈ t, ∀ y ∈ t, k.Stray s x → k.Stray s y → k.tells y → x ≠ y → k.keeper x ≠ k.note

variable {k} {s t : Set α} {x y : α} {l : List α}

theorem Calm.steady (h : k.Calm s t) : k.rule.Steady s t := by
  intro x hx t' ht' hxt'
  refine and_congr_right (fun hneedy => not_congr ?_)
  constructor
  · rintro (⟨hin, -⟩ | ⟨hnote, y, hy, hstray, htells⟩)
    · exact hin
    · by_contra hout
      exact h.note x hx y (ht' hy) ⟨hneedy, hout⟩ hstray htells (fun hxy => hxt' (hxy ▸ hy)) hnote
  · intro hin
    refine .inl ⟨hin, ?_⟩
    rintro ⟨y, hy, hstray, hkeeper⟩
    exact h.keeper x hx y (ht' hy) hneedy hstray hkeeper

/-- **Where it is calm a sweep leaves no stray**, with the note or without. -/
theorem Calm.no_stray (h : k.Calm s t) (hx : x ∈ t) {s' : Set α} (hs' : k.rule.swept s t ⊆ s')
    (hin : x ∈ k.rule.swept s t) : ¬ k.Stray s' x := by
  rintro ⟨hneedy, hout⟩
  have hkept : ¬ k.Stray s x := by
    rcases hin with ⟨-, hkept⟩ | ⟨hnote, -⟩
    · exact fun hstray => hkept ⟨x, hx, hstray, rfl⟩
    · rw [show x = k.note from hnote] at hneedy
      exact absurd hneedy k.note_stays
  have hkeeper : k.keeper x ∈ s := by
    by_contra hlost
    exact hkept ⟨hneedy, hlost⟩
  refine hout (hs' (.inl ⟨hkeeper, ?_⟩))
  rintro ⟨y, hy, hstray, hxy⟩
  exact h.keeper x hx y hy hneedy hstray hxy

theorem mem_sweep (hx : x ∈ s) : ∀ {l : List α}, x ∉ l → x ∈ k.rule.sweep s l := by
  intro l
  induction l generalizing s with
  | nil => exact fun _ => hx
  | cons y l ih =>
    intro hl
    rw [Rule.sweep_cons]
    refine ih ?_ (fun h => hl (List.mem_cons_of_mem y h))
    by_cases hy : k.rule.hit s y
    · rw [Rule.step_of_hit hy]
      exact .inl ⟨hx, fun h => hl (h ▸ List.mem_cons_self)⟩
    · rwa [Rule.step_of_not_hit hy]

theorem not_mem_sweep (hnote : x ≠ k.note) (hx : x ∉ s) : ∀ {l : List α}, x ∉ k.rule.sweep s l := by
  intro l
  induction l generalizing s with
  | nil => exact hx
  | cons y l ih =>
    rw [Rule.sweep_cons]
    apply ih
    by_cases hy : k.rule.hit s y
    · rw [Rule.step_of_hit hy]
      rintro (⟨h, -⟩ | ⟨h, -⟩)
      · exact hx h
      · exact hnote h
    · rwa [Rule.step_of_not_hit hy]

/-- Two items of a list may come first. -/
theorem exists_perm_first (hx : x ∈ l) (hy : y ∈ l) (hxy : x ≠ y) :
    ∃ rest, (x :: y :: rest).Perm l ∧ (y :: x :: rest).Perm l := by
  classical
  have hy' : y ∈ l.erase x := (List.mem_erase_of_ne (Ne.symm hxy)).2 hy
  have hperm : (x :: y :: (l.erase x).erase y).Perm l :=
    ((List.perm_cons_erase hy').symm.cons x).trans (List.perm_cons_erase hx).symm
  exact ⟨_, hperm, (List.Perm.swap x y _).trans hperm⟩

/-- **Where it is not calm**, two orders leave different items. -/
theorem exists_orders (hnodup : l.Nodup) (hl : ∀ x ∈ l, x ∈ s) (h : ¬ k.Calm s {x | x ∈ l}) :
    ∃ l₁ l₂ x, l₁.Perm l ∧ l₂.Perm l ∧ x ∈ l ∧ k.needy x ∧ x ∈ k.rule.sweep s l₁ ∧ x ∉ k.rule.sweep s l₂ := by
  have hcases : (∃ x ∈ l, ∃ y ∈ l, k.needy x ∧ k.Stray s y ∧ k.keeper x = y) ∨
      ∃ x ∈ l, ∃ y ∈ l, k.Stray s x ∧ k.Stray s y ∧ k.tells y ∧ x ≠ y ∧ k.keeper x = k.note := by
    by_contra hno
    rw [not_or] at hno
    refine h ⟨fun x hx y hy hneedy hstray hxy => ?_, fun x hx y hy hstray hstray' htells hne hxy => ?_⟩
    · exact hno.1 ⟨x, hx, y, hy, hneedy, hstray, hxy⟩
    · exact hno.2 ⟨x, hx, y, hy, hstray, hstray', htells, hne, hxy⟩
  have hout : ∀ {x : α} {s' : Set α} {rest : List α}, k.Stray s' x → x ∉ k.rule.sweep s' (x :: rest) := by
    intro x s' rest hstray
    have hnote : x ≠ k.note := fun hx => k.note_stays (hx ▸ hstray.1)
    rw [Rule.sweep_cons, Rule.step_of_hit (r := k.rule) hstray]
    apply not_mem_sweep hnote
    rintro (⟨-, hx⟩ | ⟨hx, -⟩)
    · exact hx rfl
    · exact hnote hx
  rcases hcases with ⟨x, hx, y, hy, hneedy, hstray, rfl⟩ | ⟨x, hx, y, hy, hstray, hstray', htells, hne, hkeeper⟩
  · -- the keeper is looked at after the item it keeps, or before
    have hne : x ≠ k.keeper x := fun hxy => hstray.2 (by rw [← hxy]; exact hl _ hy)
    obtain ⟨rest, hfirst, hsecond⟩ := exists_perm_first hx hy hne
    have hkept : ¬ k.Stray s x := fun hx' => hx'.2 (hl _ hy)
    have hnote : k.keeper x ≠ k.note := fun hx => k.note_stays (hx ▸ hstray.1)
    have hlost : k.Stray (k.rule.took s (k.keeper x)) x := by
      refine ⟨hneedy, ?_⟩
      rintro (⟨-, h⟩ | ⟨h, -⟩)
      · exact h rfl
      · exact hnote h
    refine ⟨_, _, x, hfirst, hsecond, hx, hneedy, ?_, ?_⟩
    · rw [Rule.sweep_cons, Rule.step_of_not_hit (r := k.rule) hkept]
      exact mem_sweep (hl x hx) (List.nodup_cons.1 (hfirst.nodup_iff.2 hnodup)).1
    · rw [Rule.sweep_cons, Rule.step_of_hit (r := k.rule) hstray]
      exact hout hlost
  · -- the note is left before the item is looked at, or after
    obtain ⟨rest, hfirst, hsecond⟩ := exists_perm_first hx hy hne
    have hkept : ¬ k.Stray (k.rule.took s y) x := fun h => h.2 (.inr ⟨hkeeper, htells⟩)
    refine ⟨_, _, x, hsecond, hfirst, hx, hstray.1, ?_, hout hstray⟩
    rw [Rule.sweep_cons, Rule.step_of_hit (r := k.rule) hstray', Rule.sweep_cons, Rule.step_of_not_hit (r := k.rule) hkept]
    exact mem_sweep (.inl ⟨hl x hx, hne⟩) (List.nodup_cons.1 (List.nodup_cons.1 (hsecond.nodup_iff.2 hnodup)).2).1

end Kept
end Sweep
