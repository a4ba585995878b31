import Zatch.AttachTalk
/-!
# AttachResize — an attached client and the size of its window (`handle_winch`, `event_loop`)

`handle_winch` only sets a flag, which `event_loop` looks at when a turn has found something to read.  So a change of the
window is not lost (`resize_kept`), and it is not sent before something is read: a client that `SIGWINCH` interrupts in
`select` goes back to wait (`resize_waits`).
-/
namespace Zatch

open Machine

/-- Where a change of the window is on its way: `handle_winch` has run, or the size has been read since and not been sent. -/
inductive Resize
  | none
  | pending
  | measured (winsize : List Byte)
deriving DecidableEq

def Resize.after : Resize → Seen → Resize
  | _, .resized => .pending
  | .pending, .measured winsize | .measured _, .measured winsize => .measured winsize
  | .measured winsize, .sent pkt _ => if pkt = Packet.withData .winch 0 winsize then .none else .measured winsize
  | q, _ => q

def resize (out : List Seen) : Resize := out.foldl Resize.after .none

/-- What the client is still to do about the last change of the window. -/
def Resize.Kept (p : Proc) : Resize → Prop
  | .none => True
  | .pending => p.winChanged = true ∨ ∃ ops, p.todo = .getWinsize :: ops
  | .measured winsize => ∃ ops, p.todo = .send (Packet.withData .winch 0 winsize) :: ops

/-- What an operation makes of the flag. -/
theorem perform_winChanged (c : Attaching) (p : Proc) (a : OpAns) (op : Op) :
    (p.perform c a op).1.winChanged = (match op with | .setWinch => true | .winch => false | _ => p.winChanged) := by
  have hhooks : (p.runHooks a.termTook).winChanged = p.winChanged := by
    unfold Proc.runHooks
    split
    · rw [Proc.restoreTerm_eq]
    · rfl
  cases op with
  | setTerm t =>
    simp only [Proc.perform, Proc.setTerm]
    split <;> rfl
  | request pkt what =>
    simp only [Proc.perform]
    split <;> rfl
  | print text =>
    simp only [Proc.perform]
    split
    · rfl
    · exact hhooks
  | winch =>
    simp only [Proc.perform]
    split
    · rfl
    · exact Bool.eq_false_of_not_eq_true ‹_›
  | exit n => exact hhooks
  | _ => rfl

/-- Neither a signal nor a size that was read. -/
def Seen.ofResize : Seen → Bool
  | .resized | .measured _ => true
  | _ => false

theorem perform_ofResize (c : Attaching) (p : Proc) (a : OpAns) {op : Op} (h : op ≠ .getWinsize) :
    ∀ e ∈ (p.perform c a op).2, e.ofResize = false := by
  cases op with
  | getWinsize => exact absurd rfl h
  | server =>
    simp only [Proc.perform]
    split <;> simp [Seen.ofResize]
  | print text =>
    simp only [Proc.perform]
    split <;> simp [Seen.ofResize]
  | winch =>
    simp only [Proc.perform]
    split <;> simp
  | _ => simp [Proc.perform, Seen.ofResize]

theorem Resize.foldl_pending : ∀ {out : List Seen}, (∀ e ∈ out, e.ofResize = false) → out.foldl Resize.after .pending = .pending
  | [], _ => rfl
  | e :: out, h => by
    have he : Resize.after .pending e = .pending := by
      have hne := h e List.mem_cons_self
      cases e with
      | resized | measured winsize => cases hne
      | _ => rfl
    rw [List.foldl_cons, he]
    exact foldl_pending (fun x hx => h x (List.mem_cons_of_mem _ hx))

theorem Resize.foldl_none : ∀ {out : List Seen}, .resized ∉ out → out.foldl Resize.after .none = .none
  | [], _ => rfl
  | e :: out, h => by
    have he : Resize.after .none e = .none := by
      cases e with
      | resized => exact absurd List.mem_cons_self h
      | _ => rfl
    rw [List.foldl_cons, he]
    exact foldl_none (fun hx => h (List.mem_cons_of_mem _ hx))

theorem perform_not_resized (c : Attaching) (p : Proc) (a : OpAns) (op : Op) : .resized ∉ (p.perform c a op).2 := by
  by_cases h : op = .getWinsize
  · rw [h]
    simp [Proc.perform]
  · intro hmem
    cases perform_ofResize c p a h _ hmem

/-- **An operation** that the change of the window has come to moves it on, and any other leaves it where it is. -/
theorem Resize.Kept.perform {c : Attaching} {p : Proc} {a : OpAns} {op : Op} {ops : List Op} {q : Resize} (h : q.Kept p)
    (htodo : p.todo = op :: ops) :
    ((({ p with todo := ops }.perform c a op).2).foldl Resize.after q).Kept ({ p with todo := ops }.perform c a op).1 := by
  cases q with
  | none =>
    rw [foldl_none (perform_not_resized c _ a op)]
    trivial
  | pending =>
    by_cases hop : op = .getWinsize
    · rw [hop]
      exact ⟨ops, rfl⟩
    · rw [foldl_pending (perform_ofResize c _ a hop)]
      have hflag : p.winChanged = true := by
        rcases h with h | ⟨ops', h⟩
        · exact h
        · rw [htodo] at h
          exact absurd (List.cons.inj h).1 hop
      by_cases hwinch : op = .winch
      · -- the flag is taken, and the size is read next
        refine .inr ⟨ops, ?_⟩
        simp only [hwinch, Proc.perform, hflag, if_true]
        rfl
      · refine .inl ((perform_winChanged c _ a op).trans ?_)
        split
        · rfl
        · exact absurd rfl hwinch
        · exact hflag
  | measured winsize =>
    obtain ⟨ops', h⟩ := h
    rw [htodo] at h
    obtain ⟨rfl, -⟩ := List.cons.inj h
    have hsent : (({ p with todo := ops }.perform c a (.send (Packet.withData .winch 0 winsize))).2).foldl Resize.after
        (.measured winsize) = .none := if_pos rfl
    rw [hsent]
    trivial

/-- **A change of the window is never lost**: whenever `handle_winch` has run and no Winch packet with a size read after it has
been sent, the flag is set, or the client next reads the size, or next sends the Winch packet with the size it has read. -/
theorem resize_kept (c : Attaching) (evs : List ProcEv) :
    (resize (run (Proc.step c) (Proc.begin c) evs).2).Kept (run (Proc.step c) (Proc.begin c) evs).1 := by
  let R : Proc → List Seen → Prop := fun p out => (resize out).Kept p
  suffices h : R (run (Proc.step c) (Proc.begin c) evs).1 ([] ++ (run (Proc.step c) (Proc.begin c) evs).2) from h
  refine Along.history (R := R) ?_ trivial (along_of_forall (P := fun _ _ => True) evs _ (fun _ _ _ => trivial))
  intro p ev out hp _
  show (resize (out ++ (p.step c ev).2)).Kept (p.step c ev).1
  rw [resize, List.foldl_append]
  change ((p.step c ev).2.foldl Resize.after (resize out)).Kept (p.step c ev).1
  obtain ⟨a, op, ops, -, -, -, htodo, heq⟩ | ⟨bs, -, heq⟩ | ⟨p', quiet, heq, hquiet, htodo, -⟩ := Proc.step_cases c p ev
  · rw [heq]
    exact Resize.Kept.perform hp htodo
  · rw [heq]
    have hsame : Resize.after (resize out) (.arrived bs) = resize out := by cases resize out <;> rfl
    rw [List.foldl_cons, List.foldl_nil, hsame]
    exact hp
  · rw [heq]
    rcases hquiet with ⟨rfl, hw⟩ | ⟨rfl, hw⟩
    · show (resize out).Kept p'
      cases hq : resize out with
      | none => trivial
      | pending =>
        rw [show R p out = (resize out).Kept p from rfl, hq] at hp
        exact hp.imp hw.trans (fun ⟨ops, h⟩ => ⟨ops, htodo.trans h⟩)
      | measured winsize =>
        rw [show R p out = (resize out).Kept p from rfl, hq] at hp
        exact hp.imp (fun ops h => htodo.trans h)
    · exact .inl hw

/-! ## A client that finds nothing to read -/

def isEintr : Except Errno (Bool × Bool) → Bool
  | .error .eintr => true
  | _ => false

theorem eq_of_isEintr {r : Except Errno (Bool × Bool)} (h : isEintr r = true) : r = .error .eintr := by
  unfold isEintr at h
  split at h
  · rfl
  · cases h

def interruptedAt (p : Proc) : ProcEv → Bool
  | .go a =>
    match p.todo with
    | .select :: _ => isEintr a.ready
    | _ => true
  | _ => true

/-- `select` is interrupted. -/
def Interrupted (p : Proc) (ev : ProcEv) : Prop := interruptedAt p ev = true

instance (p : Proc) (ev : ProcEv) : Decidable (Interrupted p ev) := instDecidableEqBool _ _

/-- The operations of a client that waits, and of one that ends by a signal. -/
def Op.ofWait : Op → Bool
  | .check | .select | .record _ _ | .print _ | .setTerm _ | .backedUp _ | .exit _ => true
  | _ => false

/-- Interrupted, such an operation leads to others. -/
theorem opens_ofWait {c : Attaching} {p : Proc} {a : OpAns} {op : Op} (h : op.ofWait = true)
    (hs : op = .select → a.ready = .error .eintr) : ∀ x ∈ p.opens c a op, x.ofWait = true := by
  cases op with
  | check =>
    simp only [Proc.opens]
    split <;> simp [dieOps, announced, restoreAndExit, Op.ofWait]
  | select =>
    simp only [Proc.opens, selectOps, hs rfl]
    simp [Op.ofWait]
  | record level message => simp [Proc.opens]
  | print text => simp [Proc.opens]
  | setTerm t => simp [Proc.opens]
  | backedUp b => simp [Proc.opens]
  | exit n => simp [Proc.opens]
  | _ => cases h

theorem perform_ofWait {c : Attaching} {p : Proc} {a : OpAns} {op : Op} (h : op.ofWait = true) :
    ∀ e ∈ (p.perform c a op).2, e.packet = none := by
  cases op with
  | print text =>
    simp only [Proc.perform]
    split <;> simp [Seen.packet]
  | check | select | record level message | setTerm t | backedUp b | exit n => simp [Proc.perform, Seen.packet]
  | _ => cases h

/-- **A change of the window waits for something to read**: as long as `select` is only interrupted, a client that waits
sends no packet, however many times `SIGWINCH` is what interrupts it, and the flag stays set. -/
theorem resize_waits (c : Attaching) (p : Proc) (hp : p.todo = [.select]) (evs : List ProcEv)
    (h : Along (Proc.step c) Interrupted p evs) :
    (∀ e ∈ (run (Proc.step c) p evs).2, e.packet = none) ∧
      (p.winChanged = true → (run (Proc.step c) p evs).1.winChanged = true) := by
  let R : Proc → List Seen → Prop := fun q out =>
    (∀ op ∈ q.todo, op.ofWait = true) ∧ (∀ e ∈ out, e.packet = none) ∧ (p.winChanged = true → q.winChanged = true)
  have hbegin : R p [] := ⟨by rw [hp]; simp [Op.ofWait], by simp, id⟩
  suffices hr : R (run (Proc.step c) p evs).1 ([] ++ (run (Proc.step c) p evs).2) from hr.2
  refine Along.history (R := R) ?_ hbegin h
  rintro q ev out ⟨hops, hout, hflag⟩ hint
  obtain ⟨a, op, ops, rfl, -, -, htodo, heq⟩ | ⟨bs, -, heq⟩ | ⟨q', quiet, heq, hquiet, htodo, -⟩ := Proc.step_cases c q ev
  · rw [htodo] at hops
    have hop := hops op List.mem_cons_self
    have hselect : op = .select → a.ready = .error .eintr := by
      rintro rfl
      simp only [Interrupted, interruptedAt, htodo] at hint
      exact eq_of_isEintr hint
    have hwin := perform_winChanged c { q with todo := ops } a op
    rw [heq]
    refine ⟨?_, List.forall_mem_append.2 ⟨hout, perform_ofWait hop⟩, fun hw => ?_⟩
    · rcases Proc.perform_todo c { q with todo := ops } a op with ⟨-, hnil⟩ | ⟨-, hrest⟩
      · rw [hnil]
        simp
      · rw [hrest]
        exact List.forall_mem_append.2 ⟨opens_ofWait hop hselect, fun x hx => hops x (List.mem_cons_of_mem _ hx)⟩
    · apply hwin.trans
      cases op with
      | setWinch => rfl
      | winch => cases hop
      | _ => exact hflag hw
  · rw [heq]
    exact ⟨hops, List.forall_mem_append.2 ⟨hout, by simp [Seen.packet]⟩, hflag⟩
  · rw [heq]
    refine ⟨by rw [htodo]; exact hops, List.forall_mem_append.2 ⟨hout, ?_⟩, fun hw => ?_⟩
    · rcases hquiet with ⟨rfl, -⟩ | ⟨rfl, -⟩ <;> simp [Seen.packet]
    · rcases hquiet with ⟨-, h'⟩ | ⟨-, h'⟩
      · exact h'.trans (hflag hw)
      · exact h'

/-- A client that waits, and a change of its window that interrupts it. -/
def waitingClient : Proc := (run (Proc.step plainClient) (Proc.begin plainClient) (List.replicate 8 (.go plainAns))).1

theorem resize_waits_interrupted :
    let evs : List ProcEv := [.winch, .go plainAns, .go plainAns, .winch, .go plainAns]
    resize (run (Proc.step plainClient) waitingClient evs).2 = .pending ∧
      ∀ e ∈ (run (Proc.step plainClient) waitingClient evs).2, e.packet = none := by
  intro evs
  exact ⟨by decide +kernel,
    (resize_waits plainClient waitingClient (by decide +kernel) evs (by decide +kernel)).1⟩

end Zatch
