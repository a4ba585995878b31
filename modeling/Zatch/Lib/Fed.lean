import Mathlib.Algebra.Order.Ring.Nat
import Mathlib.Data.Stream.Init
import Mathlib.Data.List.Forall2
/-!
# Fed — loops fed by a stream of answers

A loop asks for an answer at every turn until it returns.  Where a function takes the answers as a list and says which of
them it leaves unread, it returns on a stream of answers when it reads so many of the first ones and nothing after them
(`Returns`).  A loop whose measure drops at every answer from some point on returns (`Loop.returns_of_drop_from`).  A loop
that moves items, so many at every answer, need not: it returns exactly when an answer stops it or the counts it is given
cover what it has to move (`Loop.Moves.returns_iff`).
-/
namespace Fed

/-- It reads the first `n` answers and leaves whatever comes after them; what it makes of the end of a list plays no part. -/
def Returns {α : Type} (rest : List α → List α) (ans : Stream' α) : Prop :=
  ∃ n, ∀ more, rest (ans.take n ++ more) = more

/-- A loop: when it is over without another answer, and a turn of its body, `none` when the body returns. -/
structure Loop (σ α : Type) where
  isOver : σ → Bool
  turn : σ → α → Option σ

namespace Loop

section
variable {σ α : Type} (l : Loop σ α)

/-- The answers the loop leaves unread. -/
def rest : σ → List α → List α
  | _, [] => []
  | s, a :: as =>
    if l.isOver s then a :: as
    else
      match l.turn s a with
      | none => as
      | some s' => rest s' as

variable {l} {s s' : σ} {a : α} {ans : Stream' α}

/-- **A function that goes round like the loop is the loop.** -/
theorem eq_rest {f : σ → List α → List α} (hnil : ∀ s, f s [] = [])
    (hcons : ∀ s a as, f s (a :: as) = if l.isOver s then a :: as else (l.turn s a).elim as (fun s' => f s' as)) (s : σ) :
    f s = l.rest s := by
  funext as
  induction as generalizing s with
  | nil => exact hnil s
  | cons a as ih =>
    rw [hcons, rest]
    split
    · rfl
    · cases l.turn s a with
      | none => rfl
      | some s' => exact ih s'

theorem rest_of_isOver (h : l.isOver s = true) (as : List α) : l.rest s as = as := by
  cases as with
  | nil => rfl
  | cons a as => rw [rest, if_pos h]

theorem rest_cons_none (h : l.isOver s = false) (ht : l.turn s a = none) (as : List α) : l.rest s (a :: as) = as := by
  rw [rest, if_neg (by simp [h]), ht]

theorem rest_cons_some (h : l.isOver s = false) (ht : l.turn s a = some s') (as : List α) :
    l.rest s (a :: as) = l.rest s' as := by
  rw [rest, if_neg (by simp [h]), ht]

theorem reads_next {n : Nat} (hn : ∀ more, l.rest s (ans.take n ++ more) = more) (hover : l.isOver s = false)
    (hturn : l.turn s ans.head = some s') : ∃ m, n = m + 1 ∧ ∀ more, l.rest s' (ans.tail.take m ++ more) = more := by
  cases n with
  | zero =>
    -- the one answer it is given here is read, not left
    have hread := hn [ans.head]
    rw [Stream'.take_zero, List.nil_append, rest_cons_some hover hturn] at hread
    cases hread
  | succ n =>
    refine ⟨n, rfl, fun more => ?_⟩
    have hread := hn more
    rw [Stream'.take_succ, List.cons_append, rest_cons_some hover hturn] at hread
    exact hread

/-- **A loop returns exactly when it does from where its first turn goes on to.** -/
theorem returns_iff_next : Returns (l.rest s) ans ↔
    ∀ s', l.isOver s = false → l.turn s ans.head = some s' → Returns (l.rest s') ans.tail := by
  constructor
  · rintro ⟨n, hn⟩ s' hover hturn
    obtain ⟨m, -, hm⟩ := reads_next hn hover hturn
    exact ⟨m, hm⟩
  · intro hnext
    cases hover : l.isOver s with
    | true => exact ⟨0, fun more => rest_of_isOver hover more⟩
    | false =>
      cases hturn : l.turn s ans.head with
      | none => exact ⟨1, fun more => rest_cons_none hover hturn more⟩
      | some s' =>
        obtain ⟨n, hn⟩ := hnext s' hover hturn
        refine ⟨n + 1, fun more => ?_⟩
        rw [Stream'.take_succ, List.cons_append, rest_cons_some hover hturn, hn more]

/-- **Induction along a loop that returns.** -/
theorem returns_induction {motive : σ → Stream' α → Prop}
    (hnext : ∀ s ans, (∀ s', l.isOver s = false → l.turn s ans.head = some s' → motive s' ans.tail) → motive s ans)
    (hret : Returns (l.rest s) ans) : motive s ans := by
  obtain ⟨n, hn⟩ := hret
  induction n generalizing s ans with
  | zero =>
    apply hnext
    intro s' hover hturn
    obtain ⟨m, hm, -⟩ := reads_next hn hover hturn
    cases hm
  | succ n ih =>
    apply hnext
    intro s' hover hturn
    obtain ⟨m, hm, hread⟩ := reads_next hn hover hturn
    obtain rfl := Nat.succ.inj hm
    exact ih hread

/-- **A loop whose measure drops at every turn returns.** -/
theorem returns_of_drop (μ : σ → Nat) (s : σ) (ans : Stream' α)
    (hdrop : ∀ i s s', l.isOver s = false → l.turn s (ans.get i) = some s' → μ s' < μ s) : Returns (l.rest s) ans := by
  induction hm : μ s using Nat.strong_induction_on generalizing s ans with
  | h m ih =>
    apply returns_iff_next.2
    intro s' hover hturn
    have hlt : μ s' < m := hm ▸ hdrop 0 s s' hover hturn
    exact ih (μ s') hlt s' ans.tail (fun i => hdrop (i + 1)) rfl

/-- **A loop whose measure drops at every turn from the `N`-th answer on returns**, wherever the answers before take it. -/
theorem returns_of_drop_from (μ : σ → Nat) (N : Nat) (s : σ) (ans : Stream' α)
    (hdrop : ∀ i, N ≤ i → ∀ s s', l.isOver s = false → l.turn s (ans.get i) = some s' → μ s' < μ s) :
    Returns (l.rest s) ans := by
  induction N generalizing s ans with
  | zero => exact returns_of_drop μ s ans (fun i => hdrop i (Nat.zero_le i))
  | succ N ih =>
    apply returns_iff_next.2
    intro s' _ _
    exact ih s' ans.tail (fun i hi => hdrop (i + 1) (Nat.succ_le_succ hi))

end

end Loop

/-! ## Loops that move items -/

/-- The pieces left of `ps` when `n` items are moved, none of them past the first piece. -/
def advance (n : Nat) : List Nat → List Nat
  | [] => []
  | p :: ps => if p ≤ n then ps else (p - n) :: ps

/-- The counts `cs` cover the pieces `ps`: parts of them, one after another from the first count on, each add up to a
piece. -/
def Covers (ps cs : List Nat) : Prop :=
  ∃ parts : List (List Nat), parts.flatten <+: cs ∧ List.Forall₂ (fun p part => p ≤ part.sum) ps parts

theorem covers_nil (cs : List Nat) : Covers [] cs := ⟨[], List.nil_prefix, .nil⟩

theorem not_covers_cons_nil {p : Nat} (hp : 0 < p) (ps : List Nat) : ¬ Covers (p :: ps) [] := by
  rintro ⟨parts, hpre, hsum⟩
  obtain ⟨part, parts, hle, -, rfl⟩ := List.forall₂_cons_left_iff.1 hsum
  rw [List.prefix_nil, List.flatten_cons, List.append_eq_nil_iff] at hpre
  rw [hpre.1] at hle
  exact absurd hle (Nat.not_le.2 hp)

/-- **The first count covers what it can of the first piece**, and the others what is left. -/
theorem covers_cons_iff {p : Nat} (hp : 0 < p) (ps : List Nat) (c : Nat) (cs : List Nat) :
    Covers (p :: ps) (c :: cs) ↔ Covers (advance c (p :: ps)) cs := by
  constructor
  · rintro ⟨parts, hpre, hsum⟩
    obtain ⟨part, parts, hle, hrest, rfl⟩ := List.forall₂_cons_left_iff.1 hsum
    obtain _ | ⟨c', part⟩ := part
    · exact absurd hle (Nat.not_le.2 hp)
    rw [List.flatten_cons, List.cons_append, List.cons_prefix_cons] at hpre
    obtain ⟨rfl, hpre⟩ := hpre
    rw [List.sum_cons] at hle
    by_cases hfull : p ≤ c'
    · rw [advance, if_pos hfull]
      -- what the first part has left over goes to the next piece
      cases ps with
      | nil => exact covers_nil cs
      | cons q ps =>
        obtain ⟨part', parts, hle', hrest', rfl⟩ := List.forall₂_cons_left_iff.1 hrest
        refine ⟨(part ++ part') :: parts, ?_, .cons ?_ hrest'⟩
        · rw [List.flatten_cons, List.append_assoc]
          exact hpre
        · rw [List.sum_append]
          omega
    · rw [advance, if_neg hfull]
      exact ⟨part :: parts, hpre, .cons (by omega) hrest⟩
  · by_cases hfull : p ≤ c
    · rw [advance, if_pos hfull]
      rintro ⟨parts, hpre, hsum⟩
      exact ⟨[c] :: parts, List.cons_prefix_cons.2 ⟨rfl, hpre⟩, .cons (by rwa [List.sum_singleton]) hsum⟩
    · rw [advance, if_neg hfull]
      rintro ⟨parts, hpre, hsum⟩
      obtain ⟨part, parts, hle, hrest, rfl⟩ := List.forall₂_cons_left_iff.1 hsum
      refine ⟨(c :: part) :: parts, List.cons_prefix_cons.2 ⟨rfl, hpre⟩, .cons ?_ hrest⟩
      rw [List.sum_cons]
      omega

theorem covers_singleton {p : Nat} {cs : List Nat} : Covers [p] cs ↔ p ≤ cs.sum := by
  constructor
  · rintro ⟨parts, ⟨post, rfl⟩, hsum⟩
    obtain ⟨part, parts, hle, -, rfl⟩ := List.forall₂_cons_left_iff.1 hsum
    rw [List.flatten_cons, List.sum_append, List.sum_append]
    omega
  · intro hle
    exact ⟨[cs], by simp, .cons hle .nil⟩

theorem Covers.sum_le {ps cs : List Nat} (h : Covers ps cs) : ps.sum ≤ cs.sum := by
  obtain ⟨parts, ⟨post, rfl⟩, hsum⟩ := h
  rw [List.sum_append]
  induction hsum with
  | nil => exact Nat.zero_le _
  | cons hle _ ih =>
    rw [List.sum_cons, List.flatten_cons, List.sum_append]
    omega

namespace Loop

section
variable {σ α : Type}

/-- A loop that moves the items of some pieces, the pieces one after another: an answer stops it, or moves items of the
first piece and no other.  It goes round only where the state is `good`. -/
structure Moves (l : Loop σ α) (good : σ → Prop) (stops : α → Prop) (count : α → Nat) (pieces : σ → List Nat) : Prop where
  isOver_iff : ∀ {s}, good s → (l.isOver s = true ↔ pieces s = [])
  pos : ∀ {s}, good s → ∀ p ∈ pieces s, 0 < p
  stop : ∀ {s a}, good s → l.isOver s = false → stops a → l.turn s a = none
  go : ∀ {s a}, good s → l.isOver s = false → ¬ stops a →
    ∃ s', l.turn s a = some s' ∧ good s' ∧ pieces s' = advance (count a) (pieces s)

namespace Moves
variable {l : Loop σ α} {good : σ → Prop} {stops : α → Prop} {count : α → Nat} {pieces : σ → List Nat}

/-- **One turn**: it stops the loop, or covers what it can. -/
theorem covers_next (hm : Moves l good stops count pieces) {s : σ} (hs : good s) (hover : l.isOver s = false) {a : α}
    (ha : ¬ stops a) (cs : List Nat) : ∃ s', l.turn s a = some s' ∧ good s' ∧
      (Covers (pieces s) (count a :: cs) ↔ Covers (pieces s') cs) := by
  obtain ⟨s', hturn, hs', hpieces⟩ := hm.go hs hover ha
  refine ⟨s', hturn, hs', ?_⟩
  cases hp : pieces s with
  | nil => rw [(hm.isOver_iff hs).2 hp] at hover; cases hover
  | cons p ps =>
    have hpos : 0 < p := hm.pos hs p (by rw [hp]; exact List.mem_cons_self)
    rw [hpieces, hp]
    exact covers_cons_iff hpos ps (count a) cs

theorem returns_of_stops (hm : Moves l good stops count pieces) (i : Nat) {s : σ} (hs : good s) {ans : Stream' α}
    (hi : stops (ans.get i)) : Returns (l.rest s) ans := by
  induction i generalizing s ans with
  | zero =>
    apply returns_iff_next.2
    intro s' hover hturn
    rw [hm.stop hs hover hi] at hturn
    cases hturn
  | succ i ih =>
    apply returns_iff_next.2
    intro s' hover hturn
    by_cases ha : stops ans.head
    · rw [hm.stop hs hover ha] at hturn
      cases hturn
    · obtain ⟨s'', hturn', hs'', -⟩ := hm.go hs hover ha
      obtain rfl := Option.some.inj (hturn.symm.trans hturn')
      exact ih hs'' hi

theorem returns_of_covers (hm : Moves l good stops count pieces) (n : Nat) {s : σ} (hs : good s) {ans : Stream' α}
    (hn : Covers (pieces s) ((ans.take n).map count)) : Returns (l.rest s) ans := by
  induction n generalizing s ans with
  | zero =>
    apply returns_iff_next.2
    intro s' hover _
    cases hp : pieces s with
    | nil => rw [(hm.isOver_iff hs).2 hp] at hover; cases hover
    | cons p ps =>
      rw [hp] at hn
      exact absurd hn (not_covers_cons_nil (hm.pos hs p (by rw [hp]; exact List.mem_cons_self)) ps)
  | succ n ih =>
    apply returns_iff_next.2
    intro s' hover hturn
    by_cases ha : stops ans.head
    · rw [hm.stop hs hover ha] at hturn
      cases hturn
    · obtain ⟨s'', hturn', hs'', hiff⟩ := hm.covers_next hs hover ha ((ans.tail.take n).map count)
      obtain rfl := Option.some.inj (hturn.symm.trans hturn')
      rw [Stream'.take_succ, List.map_cons, hiff] at hn
      exact ih hs'' hn

theorem stops_or_covers (hm : Moves l good stops count pieces) {s : σ} (hs : good s) {ans : Stream' α}
    (hret : Returns (l.rest s) ans) :
    (∃ i, stops (ans.get i)) ∨ ∃ n, Covers (pieces s) ((ans.take n).map count) := by
  revert hs
  refine returns_induction (motive := fun s ans => good s →
    (∃ i, stops (ans.get i)) ∨ ∃ n, Covers (pieces s) ((ans.take n).map count)) (fun s ans hnext hs => ?_) hret
  cases hover : l.isOver s with
  | true =>
    refine .inr ⟨0, ?_⟩
    rw [(hm.isOver_iff hs).1 hover]
    exact covers_nil _
  | false =>
    by_cases ha : stops ans.head
    · exact .inl ⟨0, ha⟩
    · obtain ⟨s', hturn, hs', -⟩ := hm.go hs hover ha
      rcases hnext s' hover hturn hs' with ⟨i, hi⟩ | ⟨n, hn⟩
      · exact .inl ⟨i + 1, hi⟩
      · obtain ⟨s'', hturn', -, hiff⟩ := hm.covers_next hs hover ha ((ans.tail.take n).map count)
        obtain rfl := Option.some.inj (hturn.symm.trans hturn')
        exact .inr ⟨n + 1, hiff.2 hn⟩

/-- **A loop that moves items returns exactly when an answer stops it or the counts cover its pieces.** -/
theorem returns_iff (hm : Moves l good stops count pieces) {s : σ} (hs : good s) (ans : Stream' α) :
    Returns (l.rest s) ans ↔ (∃ i, stops (ans.get i)) ∨ ∃ n, Covers (pieces s) ((ans.take n).map count) := by
  constructor
  · exact hm.stops_or_covers hs
  · rintro (⟨i, hi⟩ | ⟨n, hn⟩)
    · exact hm.returns_of_stops i hs hi
    · exact hm.returns_of_covers n hs hn

end Moves

end

end Loop

end Fed
