import Mathlib.Data.List.Basic
/-!
# Machine — runs of a machine with outputs

A machine is a function `step : σ → α → σ × List ε`: a state and an input give the next state and what the step did.
`run` feeds it a list of inputs and appends what the steps did; `Along` says that a condition on the state and the
input holds at every step of a run.  Invariants, and relations between the state and everything done so far, go from
one step to a run by one induction each (`Along.inv`, `Along.history`).
-/
namespace Machine

section
variable {σ α ε : Type} (step : σ → α → σ × List ε)

/-- The state after a list of inputs, and everything done on the way, oldest first. -/
def run : σ → List α → σ × List ε
  | s, [] => (s, [])
  | s, a :: as => ((run (step s a).1 as).1, (step s a).2 ++ (run (step s a).1 as).2)

/-- A condition that holds at every step of the run, read at the state before the step. -/
def Along (P : σ → α → Prop) : σ → List α → Prop
  | _, [] => True
  | s, a :: as => P s a ∧ Along P (step s a).1 as

variable {step}

instance decidableAlong (P : σ → α → Prop) [∀ s a, Decidable (P s a)] :
    ∀ (s : σ) (as : List α), Decidable (Along step P s as)
  | _, [] => isTrue trivial
  | s, a :: as => @instDecidableAnd _ _ _ (decidableAlong P (step s a).1 as)

@[simp] theorem run_nil (s : σ) : run step s [] = (s, []) := rfl

theorem run_cons (s : σ) (a : α) (as : List α) :
    run step s (a :: as) = ((run step (step s a).1 as).1, (step s a).2 ++ (run step (step s a).1 as).2) := rfl

@[simp] theorem run_singleton (s : σ) (a : α) : run step s [a] = step s a := by
  rw [run_cons]; simp

theorem run_append : ∀ (as bs : List α) (s : σ), run step s (as ++ bs) =
      ((run step (run step s as).1 bs).1, (run step s as).2 ++ (run step (run step s as).1 bs).2)
  | [], bs, s => by simp
  | a :: as, bs, s => by
    rw [List.cons_append, run_cons, run_append as bs, run_cons]
    simp

@[simp] theorem along_nil (P : σ → α → Prop) (s : σ) : Along step P s [] := trivial

theorem along_cons (P : σ → α → Prop) (s : σ) (a : α) (as : List α) :
    Along step P s (a :: as) ↔ P s a ∧ Along step P (step s a).1 as := Iff.rfl

theorem along_append (P : σ → α → Prop) : ∀ (as bs : List α) (s : σ),
    Along step P s (as ++ bs) ↔ Along step P s as ∧ Along step P (run step s as).1 bs
  | [], bs, s => by simp
  | a :: as, bs, s => by
    rw [List.cons_append, along_cons, along_cons, along_append P as bs, run_cons, and_assoc]

/-- **A condition along a run is the condition at every split of it.** -/
theorem along_iff (P : σ → α → Prop) : ∀ (as : List α) (s : σ),
    Along step P s as ↔ ∀ pre a post, as = pre ++ a :: post → P (run step s pre).1 a
  | [], s => by simp
  | a :: as, s => by
    rw [along_cons, along_iff P as]
    constructor
    · rintro ⟨ha, h⟩ pre a' post hs
      cases pre with
      | nil =>
        simp only [List.nil_append, List.cons.injEq] at hs
        obtain ⟨rfl, rfl⟩ := hs
        exact ha
      | cons x pre =>
        simp only [List.cons_append, List.cons.injEq] at hs
        obtain ⟨rfl, rfl⟩ := hs
        exact h pre a' post rfl
    · intro h
      exact ⟨h [] a as rfl, fun pre a' post hs => h (a :: pre) a' post (by rw [hs]; rfl)⟩

theorem Along.mono {P Q : σ → α → Prop} (hPQ : ∀ s a, P s a → Q s a) :
    ∀ {as : List α} {s : σ}, Along step P s as → Along step Q s as
  | [], _, _ => trivial
  | _ :: _, _, h => ⟨hPQ _ _ h.1, Along.mono hPQ h.2⟩

theorem Along.and {P Q : σ → α → Prop} :
    ∀ {as : List α} {s : σ}, Along step P s as → Along step Q s as → Along step (fun s a => P s a ∧ Q s a) s as
  | [], _, _, _ => trivial
  | _ :: _, _, hP, hQ => ⟨⟨hP.1, hQ.1⟩, Along.and hP.2 hQ.2⟩

theorem along_and (P Q : σ → α → Prop) (as : List α) (s : σ) :
    Along step (fun s a => P s a ∧ Q s a) s as ↔ Along step P s as ∧ Along step Q s as :=
  ⟨fun h => ⟨h.mono (fun _ _ h => h.1), h.mono (fun _ _ h => h.2)⟩, fun h => h.1.and h.2⟩

theorem along_of_forall {P : σ → α → Prop} : ∀ (as : List α) (s : σ), (∀ a ∈ as, ∀ s, P s a) → Along step P s as
  | [], _, _ => trivial
  | a :: as, s, h => ⟨h a List.mem_cons_self s, along_of_forall as _ (fun a ha => h a (List.mem_cons_of_mem _ ha))⟩

/-- A condition that an invariant gives at each of the inputs. -/
theorem along_of_inv {P : σ → α → Prop} {I : σ → Prop} (hstep : ∀ s a, I s → I (step s a).1) :
    ∀ (as : List α) (s : σ), I s → (∀ a ∈ as, ∀ s, I s → P s a) → Along step P s as
  | [], _, _, _ => trivial
  | a :: as, s, hI, h =>
    ⟨h a List.mem_cons_self s hI, along_of_inv hstep as _ (hstep s a hI) (fun a ha => h a (List.mem_cons_of_mem _ ha))⟩

/-- An invariant every step keeps holds after every run. -/
theorem run_inv {I : σ → Prop} (hstep : ∀ s a, I s → I (step s a).1) : ∀ (as : List α) (s : σ), I s → I (run step s as).1
  | [], _, hI => hI
  | a :: as, s, hI => run_inv hstep as (step s a).1 (hstep s a hI)

/-- **An invariant every allowed step keeps holds after every allowed run.** -/
theorem Along.inv {P : σ → α → Prop} {I : σ → Prop} (hstep : ∀ s a, I s → P s a → I (step s a).1) :
    ∀ {as : List α} {s : σ}, I s → Along step P s as → I (run step s as).1
  | [], _, hI, _ => hI
  | a :: as, s, hI, h => by
    show I (run step (step s a).1 as).1
    exact Along.inv hstep (hstep s a hI h.1) h.2

/-- **A relation between the state and everything done so far**, kept by every allowed step, holds after every allowed
run. -/
theorem Along.history {P : σ → α → Prop} {R : σ → List ε → Prop}
    (hstep : ∀ s a out, R s out → P s a → R (step s a).1 (out ++ (step s a).2)) :
    ∀ {as : List α} {s : σ} {out : List ε}, R s out → Along step P s as →
      R (run step s as).1 (out ++ (run step s as).2)
  | [], _, _, hR, _ => by simpa using hR
  | a :: as, s, out, hR, h => by
    show R (run step (step s a).1 as).1 (out ++ ((step s a).2 ++ (run step (step s a).1 as).2))
    rw [← List.append_assoc]
    exact Along.history hstep (hstep s a out hR h.1) h.2

/-- **A condition on steps that is exactly what keeps an invariant** holds along a run exactly when every state of the
run has the invariant. -/
theorem along_iff_inv {P : σ → α → Prop} {I : σ → Prop} (hstep : ∀ s a, I s → (I (step s a).1 ↔ P s a)) :
    ∀ (as : List α) (s : σ), I s → (Along step P s as ↔ ∀ pre post, as = pre ++ post → I (run step s pre).1)
  | [], s, hI => by
    refine ⟨fun _ pre post h => ?_, fun _ => trivial⟩
    obtain ⟨rfl, -⟩ := List.append_eq_nil_iff.1 h.symm
    exact hI
  | a :: as, s, hI => by
    rw [along_cons]
    constructor
    · rintro ⟨ha, h⟩ pre post hs
      cases pre with
      | nil => exact hI
      | cons x pre =>
        simp only [List.cons_append, List.cons.injEq] at hs
        obtain ⟨rfl, hs⟩ := hs
        exact (along_iff_inv hstep as _ ((hstep s a hI).2 ha)).1 h pre post hs
    · intro h
      have hnext : I (step s a).1 := by
        have := h [a] as rfl
        rwa [run_singleton] at this
      refine ⟨(hstep s a hI).1 hnext, (along_iff_inv hstep as _ hnext).2 (fun pre post hs => ?_)⟩
      exact h (a :: pre) post (by rw [hs, List.cons_append])

/-- **A property that no step gives back**, and that the condition is exactly what keeps, is there at the end of a run
exactly when the condition holds along it.  `J` is what every step keeps, whatever it does. -/
theorem inv_run_iff {P : σ → α → Prop} {I J : σ → Prop} (hJ : ∀ s a, J s → J (step s a).1)
    (hlost : ∀ s a, J s → I (step s a).1 → I s) (hstep : ∀ s a, J s → I s → (I (step s a).1 ↔ P s a)) :
    ∀ (as : List α) (s : σ), J s → ((I s ∧ Along step P s as) ↔ I (run step s as).1)
  | [], s, _ => and_iff_left trivial
  | a :: as, s, hs => by
    show I s ∧ P s a ∧ Along step P (step s a).1 as ↔ I (run step (step s a).1 as).1
    rw [← inv_run_iff hJ hlost hstep as (step s a).1 (hJ s a hs), ← and_assoc]
    refine and_congr_left (fun _ => ⟨fun h => (hstep s a hs h.1).2 h.2, fun h => ?_⟩)
    have hI := hlost s a hs h
    exact ⟨hI, (hstep s a hs hI).1 h⟩

/-- A machine that stands still at every input does nothing. -/
theorem run_still {s : σ} : ∀ as : List α, (∀ a ∈ as, step s a = (s, [])) → run step s as = (s, [])
  | [], _ => rfl
  | a :: as, h => by
    rw [run_cons, h a List.mem_cons_self, run_still as (fun x hx => h x (List.mem_cons_of_mem a hx))]
    rfl

/-- Inputs at which the machine stands still can be left out. -/
theorem run_filter {p : α → Bool} (hstill : ∀ a, p a = false → ∀ s, step s a = (s, [])) :
    ∀ (as : List α) (s : σ), run step s (as.filter p) = run step s as
  | [], _ => rfl
  | a :: as, s => by
    rw [run_cons]
    cases h : p a with
    | true => rw [List.filter_cons_of_pos h, run_cons, run_filter hstill as]
    | false =>
      rw [List.filter_cons_of_neg (by simp [h]), hstill a h s, run_filter hstill as]
      rfl

theorem along_filter {P : σ → α → Prop} {p : α → Bool} (hstill : ∀ a, p a = false → ∀ s, step s a = (s, []))
    (hP : ∀ a, p a = false → ∀ s, P s a) : ∀ (as : List α) (s : σ), Along step P s (as.filter p) ↔ Along step P s as
  | [], _ => Iff.rfl
  | a :: as, s => by
    rw [along_cons]
    cases h : p a with
    | true => rw [List.filter_cons_of_pos h, along_cons, along_filter hstill hP as]
    | false =>
      rw [List.filter_cons_of_neg (by simp [h]), hstill a h s, along_filter hstill hP as]
      exact (and_iff_right (hP a h s)).symm

end

end Machine
