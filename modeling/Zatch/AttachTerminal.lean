import Zatch.AttachClient
/-!
# AttachTerminal — the terminal of an attached client (`restore_term`, `restore_and_exit`, `handle_die`)

The operations still to do are gone through with what they make of the terminal (`Planned`), as if no signal came; a signal
can only give the terminal back early (`Foreseen.Agrees`).  So wherever the client ends it ends with the terminal as it
found it (`terminal_given_back`), and a signal to end is seen after one more wait at most (`waits_once_more`).
-/
namespace Zatch

open Machine

/-- What the operations before make of the terminal and of the flags, when no signal comes in between. -/
structure Foreseen where
  term : TermAttrs
  saved : Bool
  backedUp : Bool
  hooked : Bool

namespace Foreseen

/-- A client that ends here leaves the terminal as it found it. -/
def Safe (c : Attaching) (f : Foreseen) : Prop := f.term = c.orig ∨ f.backedUp = true ∧ f.hooked = true

def attached (c : Attaching) : Foreseen := ⟨c.cur, true, true, true⟩

def next (f : Foreseen) : Op → Foreseen
  | .backup _ => { f with saved := true }
  | .backedUp b => { f with backedUp := b }
  | .setTerm t => { f with term := t }
  | .hooks => { f with hooked := true }
  | _ => f

/-- What an operation needs of what is before it. -/
def Allows (c : Attaching) (f : Foreseen) : Op → Prop
  | .backup t => t = c.orig
  | .backedUp b => b = true → f.saved = true
  | .setTerm t => t = c.orig ∨ t = c.cur
  | .stop => f.term = c.orig
  | .print _ | .exit _ => f.Safe c
  | .request _ _ | .check | .select | .server | .stdin | .winch | .getWinsize => f = attached c
  | _ => True

end Foreseen

/-- Every operation of the list finds what it needs. -/
def Planned (c : Attaching) : Foreseen → List Op → Prop
  | _, [] => True
  | f, op :: ops => f.Allows c op ∧ ((∀ n, op ≠ .exit n) → Planned c (f.next op) ops)

/-- The client is where the operations before have brought it, or a signal has given the terminal back. -/
structure Foreseen.Agrees (c : Attaching) (f : Foreseen) (p : Proc) : Prop where
  backup : p.backup = if f.saved then some c.orig else none
  backedUp : p.backedUp = f.backedUp
  saved : f.backedUp = true → f.saved = true
  hooked : p.hooked = f.hooked
  term : p.term = f.term ∨ p.shouldDie = true ∧ p.term = c.orig

theorem planned_cons {c : Attaching} {f : Foreseen} {op : Op} {ops : List Op} :
    Planned c f (op :: ops) ↔ f.Allows c op ∧ ((∀ n, op ≠ .exit n) → Planned c (f.next op) ops) := Iff.rfl

/-- Nothing is asked of what is after an exit. -/
theorem planned_restoreAndExit (c : Attaching) (f : Foreseen) (status : Nat) (ops : List Op) :
    Planned c f (restoreAndExit c status ++ ops) := by
  simp [restoreAndExit, Planned, Foreseen.Allows, Foreseen.next, Foreseen.Safe]

theorem planned_announced {c : Attaching} {ops : List Op} (level : LogLevel) (what : String)
    (h : Planned c (Foreseen.attached c) ops) : Planned c (Foreseen.attached c) (announced c level what ++ ops) := by
  simpa [announced, Planned, Foreseen.Allows, Foreseen.next, Foreseen.Safe, Foreseen.attached] using h

theorem planned_stdin {c : Attaching} {ops : List Op} (a : StdinAns) (h : Planned c (Foreseen.attached c) ops) :
    Planned c (Foreseen.attached c) ((handleStdinData c.keys a).flatMap (StdinAct.ops c) ++ ops) := by
  have hexit := fun n => planned_restoreAndExit c (Foreseen.attached c) n ops
  unfold handleStdinData
  split
  · simpa [StdinAct.ops, Planned, Foreseen.Allows, Foreseen.next] using hexit 1
  · exact h
  · simpa [StdinAct.ops, Planned, Foreseen.Allows, Foreseen.next] using hexit 1
  · dsimp only
    split
    · simpa [StdinAct.ops, Planned, Foreseen.Allows, Foreseen.next, Foreseen.attached] using h
    · split
      · simpa [StdinAct.ops, Planned, Foreseen.Allows, Foreseen.next, Foreseen.Safe, Foreseen.attached] using hexit 0
      · split <;> simpa [StdinAct.ops, Planned, Foreseen.Allows, Foreseen.next] using h

/-- **What an operation puts before the rest** finds what it needs, and so does the rest after it. -/
theorem planned_opens {c : Attaching} {f : Foreseen} {op : Op} {ops : List Op} (p : Proc) (a : OpAns)
    (h : Planned c f (op :: ops)) (hne : ∀ n, op ≠ .exit n) : Planned c (f.next op) (p.opens c a op ++ ops) := by
  obtain ⟨hop, hops⟩ := planned_cons.1 h
  replace hops := hops hne
  cases op with
  | request pkt what =>
    obtain rfl : f = Foreseen.attached c := hop
    simp only [Proc.opens]
    split
    · exact hops
    · unfold failedRequest
      split <;> simp [Planned, Foreseen.Allows, Foreseen.next, Foreseen.Safe, Foreseen.attached]
  | check =>
    obtain rfl : f = Foreseen.attached c := hop
    simp only [Proc.opens]
    split
    · rw [dieOps, List.append_assoc]
      exact planned_announced _ _ (planned_restoreAndExit c _ 0 ops)
    · exact ⟨rfl, fun _ => hops⟩
  | select =>
    obtain rfl : f = Foreseen.attached c := hop
    simp only [Proc.opens]
    unfold selectOps
    split
    · exact ⟨rfl, fun _ => hops⟩
    · rw [List.append_assoc]
      exact planned_announced _ _ (planned_restoreAndExit c _ 1 ops)
    · split <;> split <;> exact (by simpa [Planned, Foreseen.Allows, Foreseen.next] using hops)
  | server =>
    obtain rfl : f = Foreseen.attached c := hop
    simp only [Proc.opens]
    unfold handleServerData
    split
    · split
      · exact planned_restoreAndExit c _ 0 ops
      · rw [List.append_assoc]
        exact planned_announced _ _ (planned_restoreAndExit c _ 0 ops)
    · exact ⟨trivial, fun _ => hops⟩
    · rw [List.append_assoc]
      exact planned_announced _ _ (planned_restoreAndExit c _ 1 ops)
    · exact hops
  | stdin =>
    obtain rfl : f = Foreseen.attached c := hop
    exact planned_stdin _ hops
  | winch =>
    obtain rfl : f = Foreseen.attached c := hop
    simp only [Proc.opens]
    split
    · exact ⟨rfl, fun _ => hops⟩
    · exact hops
  | getWinsize => exact ⟨trivial, fun _ => hops⟩
  | exit n => exact absurd rfl (hne n)
  | _ => exact hops

theorem planned_prologue (c : Attaching) : Planned c ⟨c.orig, false, false, false⟩ (Proc.prologue c) := by
  unfold Proc.prologue
  split
  · simp [Planned, Foreseen.Allows, Foreseen.next, Foreseen.attached]
  · split <;> simp [Planned, Foreseen.Allows, Foreseen.next, Foreseen.attached]

/-- What holds of a client after any events in which every `tcsetattr` takes effect. -/
structure Keeps (c : Attaching) (p : Proc) : Prop where
  plan : p.ending = none → ∃ f : Foreseen, f.Agrees c p ∧ Planned c f p.todo
  term : p.term = c.orig ∨ p.term = c.cur
  stopped : p.stopped = true → p.term = c.orig
  ended : p.ending.isSome → p.term = c.orig
  select : p.todo.head? = some .select → p.shouldDie = true → p.term = c.orig
  once : .select ∉ p.todo.tail

/-- Every `tcsetattr` of the event takes effect. -/
def ProcEv.Takes : ProcEv → Prop
  | .die took => took = true
  | .go a => a.termTook = true
  | _ => True

theorem keeps_begin (c : Attaching) : Keeps c (Proc.begin c) where
  plan _ := ⟨⟨c.orig, false, false, false⟩, ⟨rfl, rfl, by simp, rfl, .inl rfl⟩, planned_prologue c⟩
  term := .inl rfl
  stopped h := by cases h
  ended h := by cases h
  select h := by cases h
  once := by
    simp only [Proc.begin, Proc.prologue]
    split
    · simp
    · split <;> simp

/-- `handle_die` gives the terminal back, once the client has taken it. -/
theorem Foreseen.Agrees.die {c : Attaching} {f : Foreseen} {p : Proc} (h : f.Agrees c p) :
    f.Agrees c { p.restoreTerm true with shouldDie := true } ∧
      (f.backedUp = true → (p.restoreTerm true).term = c.orig) := by
  have hback := h.backup
  unfold Proc.restoreTerm
  cases hb : p.backedUp with
  | false =>
    have hf : f.backedUp = false := h.backedUp ▸ hb
    refine ⟨⟨h.backup, h.backedUp, h.saved, h.hooked, ?_⟩, fun h' => by rw [hf] at h'; cases h'⟩
    exact h.term.imp id (fun h => ⟨rfl, h.2⟩)
  | true =>
    have hf : f.backedUp = true := h.backedUp ▸ hb
    rw [h.saved hf] at hback
    simp only [if_true] at hback ⊢
    rw [hback]
    exact ⟨⟨h.backup, h.backedUp, h.saved, h.hooked, .inr ⟨rfl, rfl⟩⟩, fun _ => rfl⟩

theorem Foreseen.Agrees.orig {c : Attaching} {f : Foreseen} {p : Proc} (h : f.Agrees c p) (hf : f.term = c.orig) :
    p.term = c.orig := h.term.elim (fun h => h.trans hf) And.right

/-- **Where a client may end**, it leaves the terminal as it found it. -/
theorem Foreseen.Agrees.runHooks {c : Attaching} {f : Foreseen} {p : Proc} (h : f.Agrees c p) (hs : f.Safe c) :
    (p.runHooks true).term = c.orig := by
  unfold Proc.runHooks
  by_cases hf : f.backedUp = true
  · by_cases hh : p.hooked = true
    · rw [if_pos hh]
      exact h.die.2 hf
    · rw [if_neg hh]
      rcases hs with ho | ⟨-, ho⟩
      · exact h.orig ho
      · exact absurd (h.hooked.trans ho) hh
  · have ho : f.term = c.orig := hs.resolve_right (fun h' => hf h'.1)
    have hb : p.backedUp = false := by simpa [h.backedUp] using hf
    split
    · rw [Proc.restoreTerm, hb]
      exact h.orig ho
    · exact h.orig ho

theorem Foreseen.Agrees.perform {c : Attaching} {f : Foreseen} {p : Proc} {a : OpAns} {op : Op} (h : f.Agrees c p)
    (hop : f.Allows c op) (ha : a.termTook = true) (hgo : (p.perform c a op).1.ending.isSome = false) :
    (f.next op).Agrees c (p.perform c a op).1 := by
  obtain ⟨hback, hbacked, hsaved, hhook, hterm⟩ := h
  cases op with
  | backup t =>
    obtain rfl : t = c.orig := hop
    refine ⟨?_, hbacked, fun _ => rfl, hhook, hterm⟩
    show some (p.backup.getD c.orig) = some c.orig
    rw [hback]
    split <;> rfl
  | backedUp b => exact ⟨hback, rfl, hop, hhook, hterm⟩
  | setTerm t =>
    simp only [Proc.perform, Proc.setTerm, ha, if_true]
    exact ⟨hback, hbacked, hsaved, hhook, .inl rfl⟩
  | hooks => exact ⟨hback, hbacked, hsaved, rfl, hterm⟩
  | request pkt what =>
    simp only [Proc.perform]
    split <;> exact ⟨hback, hbacked, hsaved, hhook, hterm⟩
  | print text =>
    simp only [Proc.perform] at hgo ⊢
    split at hgo
    · rw [if_pos ‹_›]
      exact ⟨hback, hbacked, hsaved, hhook, hterm⟩
    · cases hgo
  | winch =>
    simp only [Proc.perform]
    split <;> exact ⟨hback, hbacked, hsaved, hhook, hterm⟩
  | exit n => cases hgo
  | _ => exact ⟨hback, hbacked, hsaved, hhook, hterm⟩

/-- Only the top of the loop leads to `select`, when no signal has come. -/
theorem opens_select {c : Attaching} {p : Proc} {a : OpAns} {op : Op} (h : .select ∈ p.opens c a op) :
    p.opens c a op = [.select] ∧ p.shouldDie = false := by
  cases op with
  | check =>
    simp only [Proc.opens] at h ⊢
    split at h
    · simp [dieOps, announced, restoreAndExit] at h
    · rename_i hd
      exact ⟨if_neg hd, by simpa using hd⟩
  | request pkt what =>
    simp only [Proc.opens] at h
    split at h
    · cases h
    · unfold failedRequest at h
      split at h <;> simp at h
  | select =>
    simp only [Proc.opens] at h
    unfold selectOps at h
    split at h
    · simp at h
    · simp [announced, restoreAndExit] at h
    · split at h <;> split at h <;> simp at h
  | server =>
    simp only [Proc.opens] at h
    unfold handleServerData at h
    split at h
    · split at h <;> simp [announced, restoreAndExit] at h
    · simp at h
    · simp [announced, restoreAndExit] at h
    · cases h
  | stdin =>
    simp only [Proc.opens, List.mem_flatMap] at h
    obtain ⟨act, -, h⟩ := h
    cases act <;> simp [StdinAct.ops, restoreAndExit] at h
  | winch =>
    simp only [Proc.opens] at h
    split at h <;> simp at h
  | getWinsize => simp [Proc.opens] at h
  | _ => cases h

/-- What an operation makes of the terminal, unless it ends the client. -/
theorem perform_term {c : Attaching} {p : Proc} {a : OpAns} {op : Op} (ha : a.termTook = true)
    (hgo : (p.perform c a op).1.ending.isSome = false) :
    (∃ t, op = .setTerm t ∧ (p.perform c a op).1.term = t) ∨ (∀ t, op ≠ .setTerm t) ∧ (p.perform c a op).1.term = p.term := by
  cases op with
  | setTerm t => exact .inl ⟨t, rfl, by simp [Proc.perform, Proc.setTerm, ha]⟩
  | request pkt what =>
    refine .inr ⟨by simp, ?_⟩
    simp only [Proc.perform]
    split <;> rfl
  | print text =>
    refine .inr ⟨by simp, ?_⟩
    simp only [Proc.perform] at hgo ⊢
    split at hgo
    · rw [if_pos ‹_›]
    · cases hgo
  | winch =>
    refine .inr ⟨by simp, ?_⟩
    simp only [Proc.perform]
    split <;> rfl
  | exit n => cases hgo
  | _ => exact .inr ⟨by simp, rfl⟩

/-- What an operation makes of the other flags. -/
theorem perform_flags (c : Attaching) (p : Proc) (a : OpAns) (op : Op) :
    (p.perform c a op).1.shouldDie = p.shouldDie ∧
      ((p.perform c a op).1.stopped = p.stopped ∨ op = .stop ∧ (p.perform c a op).1.stopped = a.stops) := by
  have hset : ∀ (q : Proc) (t : TermAttrs) (took : Bool),
      (q.setTerm t took).shouldDie = q.shouldDie ∧ (q.setTerm t took).stopped = q.stopped := by
    intro q t took
    unfold Proc.setTerm
    split <;> exact ⟨rfl, rfl⟩
  have hhooks : (p.runHooks a.termTook).shouldDie = p.shouldDie ∧ (p.runHooks a.termTook).stopped = p.stopped := by
    unfold Proc.runHooks Proc.restoreTerm
    split
    · split
      · split
        · exact hset _ _ _
        · exact ⟨rfl, rfl⟩
      · exact ⟨rfl, rfl⟩
    · exact ⟨rfl, rfl⟩
  cases op with
  | setTerm t => exact ⟨(hset p t _).1, .inl (hset p t _).2⟩
  | request pkt what =>
    simp only [Proc.perform]
    split <;> exact ⟨rfl, .inl rfl⟩
  | print text =>
    simp only [Proc.perform]
    split
    · exact ⟨rfl, .inl rfl⟩
    · exact ⟨hhooks.1, .inl hhooks.2⟩
  | winch =>
    simp only [Proc.perform]
    split <;> exact ⟨rfl, .inl rfl⟩
  | exit n => exact ⟨hhooks.1, .inl hhooks.2⟩
  | stop => exact ⟨rfl, .inr ⟨rfl, rfl⟩⟩
  | _ => exact ⟨rfl, .inl rfl⟩

/-- A client ends where it may. -/
theorem perform_ends {c : Attaching} {f : Foreseen} {p : Proc} {a : OpAns} {op : Op} (h : f.Agrees c p)
    (hop : f.Allows c op) (ha : a.termTook = true) (hp : p.ending = none) (he : (p.perform c a op).1.ending.isSome) :
    (p.perform c a op).1.term = c.orig := by
  have hnot : p.ending.isSome = false := by rw [hp]; rfl
  cases op with
  | print text =>
    simp only [Proc.perform] at he ⊢
    split at he
    · rw [hnot] at he
      cases he
    · rw [if_neg ‹_›, ha]
      exact h.runHooks hop
  | exit n =>
    simp only [Proc.perform, ha]
    exact h.runHooks hop
  | setTerm t =>
    simp only [Proc.perform, Proc.setTerm] at he
    split at he <;> rw [hnot] at he <;> cases he
  | request pkt what =>
    simp only [Proc.perform] at he
    split at he
    · rw [hnot] at he; cases he
    · simp only [Proc.first] at he
      rw [hnot] at he; cases he
  | winch =>
    simp only [Proc.perform] at he
    split at he
    · simp only [Proc.first] at he
      rw [hnot] at he; cases he
    · rw [hnot] at he; cases he
  | _ =>
    simp only [Proc.perform, Proc.first] at he
    rw [hnot] at he
    cases he

/-- **An operation keeps the terminal in order.** -/
theorem Keeps.perform {c : Attaching} {p : Proc} {a : OpAns} {op : Op} {ops : List Op} (h : Keeps c p)
    (htodo : p.todo = op :: ops) (hp : p.ending = none) (hs : p.stopped = false) (ha : a.termTook = true) :
    Keeps c ({ p with todo := ops }.perform c a op).1 := by
  obtain ⟨f, hagree, hplan⟩ := h.plan hp
  rw [htodo] at hplan
  have hop := hplan.1
  have honce : .select ∉ ops := by
    have := h.once
    rwa [htodo] at this
  let q : Proc := { p with todo := ops }
  have hq : f.Agrees c q := ⟨hagree.backup, hagree.backedUp, hagree.saved, hagree.hooked, hagree.term⟩
  obtain ⟨hdie, hstop⟩ := perform_flags c q a op
  show Keeps c (q.perform c a op).1
  rcases Proc.perform_todo c q a op with ⟨hend, hnil⟩ | ⟨hend, hrest⟩
  · have horig := perform_ends hq hop ha hp hend
    have hne : (q.perform c a op).1.ending ≠ none := Option.isSome_iff_ne_none.1 hend
    refine ⟨fun h' => absurd h' hne, .inl horig, fun _ => horig, fun _ => horig, ?_, ?_⟩ <;> rw [hnil] <;> simp
  · have hnone : (q.perform c a op).1.ending = none := hend.trans hp
    have hgo : (q.perform c a op).1.ending.isSome = false := by rw [hnone]; rfl
    have hne : ∀ n, op ≠ .exit n := by
      rintro n rfl
      cases hgo
    have hsel : .select ∈ q.opens c a op ++ ops → q.opens c a op = [.select] ∧ q.shouldDie = false := fun h' =>
      opens_select ((List.mem_append.1 h').resolve_right honce)
    refine ⟨fun _ => ⟨f.next op, hq.perform hop ha hgo, ?_⟩, ?_, ?_, ?_, ?_, ?_⟩
    · rw [hrest]
      exact planned_opens q a hplan hne
    · rcases perform_term ha hgo with ⟨t, rfl, ht⟩ | ⟨-, ht⟩
      · rw [ht]
        exact hop
      · rw [ht]
        exact h.term
    · intro hstopped
      rcases hstop with h' | ⟨rfl, -⟩
      · rw [h'] at hstopped
        exact absurd hstopped (by simp [q, hs])
      · exact hq.orig hop
    · intro h'
      rw [hgo] at h'
      cases h'
    · intro hhead hd
      rw [hrest] at hhead
      have := (hsel (List.mem_of_mem_head? hhead)).2
      rw [hdie, this] at hd
      cases hd
    · intro hmem
      rw [hrest] at hmem
      obtain ⟨heq, -⟩ := hsel (List.mem_of_mem_tail hmem)
      rw [heq] at hmem
      exact honce hmem

/-- What arrives, and that the window has changed, is nothing to the terminal. -/
theorem Keeps.flags {c : Attaching} {p : Proc} (h : Keeps c p) (w closed : Bool) (bs : List Byte) :
    Keeps c { p with winChanged := w, unread := bs, closed := closed } := by
  refine ⟨fun hp => ?_, h.term, h.stopped, h.ended, h.select, h.once⟩
  obtain ⟨f, hagree, hplan⟩ := h.plan hp
  exact ⟨f, ⟨hagree.backup, hagree.backedUp, hagree.saved, hagree.hooked, hagree.term⟩, hplan⟩

/-- **A signal to end keeps the terminal in order**, wherever it comes. -/
theorem Keeps.die {c : Attaching} {p : Proc} (h : Keeps c p) (hs : p.stopped ≠ true) (hp : p.ending = none) :
    Keeps c { p.restoreTerm true with shouldDie := true } := by
  obtain ⟨f, hagree, hplan⟩ := h.plan hp
  obtain ⟨hdie, horig⟩ := hagree.die
  have hterm : (p.restoreTerm true).term = c.orig ∨ (p.restoreTerm true).term = p.term := by
    cases hb : f.backedUp with
    | true => exact .inl (horig hb)
    | false =>
      rw [Proc.restoreTerm, hagree.backedUp, hb]
      exact .inr rfl
  rw [Proc.restoreTerm_eq] at hdie ⊢
  refine ⟨fun _ => ⟨f, hdie, hplan⟩, ?_, fun h' => absurd h' hs, ?_, fun hhead _ => ?_, h.once⟩
  · rcases hterm with h' | h'
    · exact .inl h'
    · exact h.term.imp h'.trans h'.trans
  · intro h'
    simp only [hp] at h'
    cases h'
  · apply horig
    cases htodo : p.todo with
    | nil => simp only [htodo] at hhead; cases hhead
    | cons op ops =>
      simp only [htodo] at hhead
      rw [htodo] at hplan
      obtain rfl : op = .select := by simpa using hhead
      obtain rfl : f = Foreseen.attached c := hplan.1
      rfl

theorem Keeps.step {c : Attaching} {p : Proc} (ev : ProcEv) (h : Keeps c p) (ht : ev.Takes) : Keeps c (p.step c ev).1 := by
  cases ev with
  | die took =>
    obtain rfl : took = true := ht
    simp only [Proc.step]
    split
    · exact h
    · rename_i hlive
      exact h.die (fun h' => hlive (.inl h')) (by simpa using fun h' => hlive (.inr h'))
  | winch =>
    simp only [Proc.step]
    split
    · exact h
    · exact h.flags true p.closed p.unread
  | cont =>
    refine ⟨fun hp => ?_, h.term, (fun h' => by cases h'), h.ended, h.select, h.once⟩
    obtain ⟨f, hagree, hplan⟩ := h.plan hp
    exact ⟨f, ⟨hagree.backup, hagree.backedUp, hagree.saved, hagree.hooked, hagree.term⟩, hplan⟩
  | arrive bs =>
    simp only [Proc.step]
    split
    · exact h
    · exact h.flags p.winChanged p.closed (p.unread ++ bs)
  | close => exact h.flags p.winChanged true p.unread
  | go a =>
    simp only [Proc.step]
    split
    · exact h
    · rename_i hlive
      simp only [not_or, Bool.not_eq_true, Option.isSome_eq_false_iff, Option.isNone_iff_eq_none] at hlive
      split
      · exact h
      · exact h.perform ‹_› hlive.2 hlive.1 ht

theorem keeps_run (c : Attaching) (evs : List ProcEv) (h : ∀ ev ∈ evs, ev.Takes) :
    Keeps c (run (Proc.step c) (Proc.begin c) evs).1 :=
  Along.inv (fun _ ev hk ht => hk.step ev ht) (keeps_begin c) (along_of_forall evs _ (fun ev hev _ => h ev hev))

/-- **The terminal is given back**: whatever signals come, and wherever they come, the terminal is as the client found it
whenever the client has stopped itself and once it has ended, by `exit` or by a panic; at no time is it anything but as it
was found or raw. -/
theorem terminal_given_back (c : Attaching) (evs : List ProcEv) (h : ∀ ev ∈ evs, ev.Takes) :
    let p := (run (Proc.step c) (Proc.begin c) evs).1
    (p.stopped = true ∨ p.ending.isSome → p.term = c.orig) ∧ (p.term = c.orig ∨ p.term = c.orig.raw) := by
  have hk := keeps_run c evs h
  exact ⟨fun h' => h'.elim hk.stopped hk.ended, hk.term⟩

/-- A client that is suspended, and that a signal to end finds when it is continued. -/
def suspended : List ProcEv :=
  let go : ProcEv := .go { plainAns with ready := .ok (false, true), stdin := .ok [26] }
  List.replicate 15 go ++ [.cont, .die true] ++ List.replicate 11 go

theorem suspended_takes : ∀ ev ∈ suspended, ev.Takes := by
  simp only [suspended, List.mem_append, List.mem_replicate, List.mem_cons, List.not_mem_nil, or_false]
  rintro ev ((⟨-, rfl⟩ | rfl | rfl) | ⟨-, rfl⟩)
  · rfl
  · trivial
  · rfl
  · rfl

theorem terminal_given_back_suspended :
    let p := (run (Proc.step plainClient) (Proc.begin plainClient) suspended).1
    p.ending = some (.exited 0) ∧ p.term = plainTerm :=
  ⟨by decide +kernel, (terminal_given_back plainClient suspended suspended_takes).1 (.inr (by decide +kernel))⟩

/-- **The terminal a client waits at** is raw, unless a signal to end has come since it last looked for one: then it waits
once more, at the terminal as it found it. -/
theorem waits_at_raw (c : Attaching) (evs : List ProcEv) (h : ∀ ev ∈ evs, ev.Takes) :
    let p := (run (Proc.step c) (Proc.begin c) evs).1
    p.ending = none → p.todo.head? = some .select → p.term = if p.shouldDie then c.orig else c.orig.raw := by
  intro p hp hhead
  have hk := keeps_run c evs h
  obtain ⟨f, hagree, hplan⟩ := hk.plan hp
  split
  · exact hk.select hhead ‹_›
  · rename_i hd
    have hterm := hagree.term.resolve_right (fun h' => hd h'.1)
    obtain ⟨op, ops, htodo⟩ : ∃ op ops, p.todo = op :: ops := List.exists_cons_of_ne_nil (by
      rintro hnil
      rw [hnil] at hhead
      cases hhead)
    rw [htodo] at hhead
    obtain rfl : op = .select := by simpa using hhead
    rw [htodo] at hplan
    obtain rfl : f = Foreseen.attached c := hplan.1
    exact hterm

/-- A client that has come to wait, and a signal to end before it does. -/
def signalled : List ProcEv := List.replicate 8 (.go plainAns) ++ [.die true]

theorem waits_at_raw_signalled :
    let p := (run (Proc.step plainClient) (Proc.begin plainClient) signalled).1
    p.todo = [.select] ∧ p.term = plainTerm := by
  have hev : ∀ ev ∈ signalled, ev.Takes := by
    simp only [signalled, List.mem_append, List.mem_replicate, List.mem_singleton]
    rintro ev (⟨-, rfl⟩ | rfl) <;> rfl
  exact ⟨by decide +kernel, (waits_at_raw plainClient signalled hev (by decide +kernel) (by decide +kernel)).trans
    (if_pos (by decide +kernel))⟩

/-! ## Signals to end -/

/-- A client that has waited with `SHOULD_DIE` set does not come to wait again. -/
structure Lingers (p : Proc) (out : List Seen) : Prop where
  once : .select ∉ p.todo.tail
  count : out.count (.selected true) ≤ 1
  last : .selected true ∈ out → p.shouldDie = true ∧ .select ∉ p.todo

theorem seen_selected {c : Attaching} {p : Proc} {a : OpAns} {op : Op} (h : .selected true ∈ (p.perform c a op).2) :
    op = .select ∧ p.shouldDie = true ∧ (p.perform c a op).2 = [.selected true] := by
  cases op with
  | select =>
    simp only [Proc.perform, List.mem_singleton, Seen.selected.injEq] at h ⊢
    exact ⟨trivial, h.symm, by rw [← h]⟩
  | server =>
    simp only [Proc.perform] at h
    split at h <;> simp at h
  | print text =>
    simp only [Proc.perform] at h
    split at h <;> simp at h
  | winch =>
    simp only [Proc.perform] at h
    split at h <;> simp at h
  | _ => simp [Proc.perform] at h

theorem Lingers.perform {c : Attaching} {p : Proc} {out : List Seen} {a : OpAns} {op : Op} {ops : List Op}
    (h : Lingers p out) (htodo : p.todo = op :: ops) :
    Lingers ({ p with todo := ops }.perform c a op).1 (out ++ ({ p with todo := ops }.perform c a op).2) := by
  have honce : .select ∉ ops := by
    have := h.once
    rwa [htodo] at this
  let q : Proc := { p with todo := ops }
  have hdie : (q.perform c a op).1.shouldDie = p.shouldDie := (perform_flags c q a op).1
  show Lingers (q.perform c a op).1 (out ++ (q.perform c a op).2)
  -- `select` is to do again only after the top of the loop, with no signal seen
  have hselect : .select ∈ (q.perform c a op).1.todo →
      q.opens c a op = [.select] ∧ (q.perform c a op).1.todo = .select :: ops ∧ p.shouldDie = false := by
    intro hmem
    rcases Proc.perform_todo c q a op with ⟨-, hnil⟩ | ⟨-, hrest⟩
    · rw [hnil] at hmem
      cases hmem
    · rw [hrest] at hmem
      obtain ⟨heq, hd⟩ := opens_select ((List.mem_append.1 hmem).resolve_right honce)
      exact ⟨heq, by rw [hrest, heq]; rfl, hd⟩
  refine ⟨fun hmem => ?_, ?_, fun hmem => ?_⟩
  · obtain ⟨-, heq, -⟩ := hselect (List.mem_of_mem_tail hmem)
    rw [heq] at hmem
    exact honce hmem
  · rw [List.count_append]
    by_cases hsel : .selected true ∈ (q.perform c a op).2
    · obtain ⟨rfl, -, heq⟩ := seen_selected hsel
      have hout : .selected true ∉ out := fun hout => (h.last hout).2 (by rw [htodo]; exact List.mem_cons_self)
      rw [List.count_eq_zero_of_not_mem hout, heq]
      exact Nat.le_refl 1
    · rw [List.count_eq_zero_of_not_mem hsel]
      exact h.count
  · have hd : p.shouldDie = true := by
      rcases List.mem_append.1 hmem with hmem | hmem
      · exact (h.last hmem).1
      · exact (seen_selected hmem).2.1
    refine ⟨hdie.trans hd, fun hmem => ?_⟩
    rw [(hselect hmem).2.2] at hd
    cases hd

/-- **After a signal to end** a client waits at most once more, wherever the signal has come. -/
theorem waits_once_more (c : Attaching) (evs : List ProcEv) :
    (run (Proc.step c) (Proc.begin c) evs).2.count (.selected true) ≤ 1 := by
  have hbegin : Lingers (Proc.begin c) [] := ⟨(keeps_begin c).once, Nat.zero_le 1, fun h => by cases h⟩
  refine (Along.history (R := Lingers) ?_ hbegin (along_of_forall (P := fun _ _ => True) evs _ (fun _ _ _ => trivial))).count
  intro p ev out h _
  obtain ⟨a, op, ops, -, -, -, htodo, heq⟩ | ⟨bs, -, heq⟩ | ⟨p', quiet, heq, hquiet, htodo, -, -, hdie, -⟩ :=
    Proc.step_cases c p ev
  · rw [heq]
    exact h.perform htodo
  · rw [heq]
    refine ⟨h.once, ?_, fun hmem => h.last (by simpa using hmem)⟩
    rw [List.count_append]
    simpa using h.count
  · rw [heq]
    have hnone : .selected true ∉ quiet := by
      rcases hquiet with ⟨rfl, -⟩ | ⟨rfl, -⟩ <;> simp
    refine ⟨by rw [htodo]; exact h.once, ?_, fun hmem => ?_⟩
    · rw [List.count_append, List.count_eq_zero_of_not_mem hnone]
      exact h.count
    · obtain ⟨hd, hs⟩ := h.last ((List.mem_append.1 hmem).resolve_right hnone)
      exact ⟨hdie hd, by rw [htodo]; exact hs⟩

end Zatch
