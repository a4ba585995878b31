import Zatch.AttachClient
/-!
# AttachTalk — what an attached client sends and shows (`attach`, `handle_stdin_data`, `handle_server_data`)

The packets of a client come in an order the session can rely on (`Talk`): it attaches and asks for a redraw before anything
else, and again after every Detach.  What comes back is shown as it came: shown, still to be shown and unread are together
what has arrived, in its order.
-/
namespace Zatch

open Machine

/-- What a client has said: it is to attach, to ask for a redraw, or is attached. -/
inductive Talk
  | toAttach (len : Byte)
  | toRedraw
  | attached
deriving DecidableEq, Repr

/-- The packets that come next. -/
def Talk.next (method : Byte) (pkt : Packet) : Talk → Option Talk
  | .toAttach len => if pkt.msgType = MsgType.attach.toU8 ∧ pkt.len = len then some .toRedraw else none
  | .toRedraw => if pkt.msgType = MsgType.redraw.toU8 ∧ pkt.len = method then some .attached else none
  | .attached =>
    if pkt.msgType = MsgType.push.toU8 ∨ pkt.msgType = MsgType.winch.toU8 then some .attached
    else if pkt.msgType = MsgType.detach.toU8 then some (.toAttach 0)
    else none

def Seen.packet : Seen → Option Packet
  | .sent pkt _ => some pkt
  | _ => none

/-- Where the packets lead, when they come in order. -/
def Talk.after (method : Byte) (q : Talk) (out : List Seen) : Option Talk :=
  (out.filterMap Seen.packet).foldlM (fun q pkt => Talk.next method pkt q) q

theorem Talk.after_append (method : Byte) (q : Talk) (out out' : List Seen) :
    q.after method (out ++ out') = (q.after method out).bind (fun q => q.after method out') := by
  unfold Talk.after
  rw [List.filterMap_append, List.foldlM_append]
  rfl

theorem Talk.next_sized (method : Byte) (q : Talk) (pkt : Packet) (winsize : List Byte) :
    Talk.next method (pkt.sized winsize) q = Talk.next method pkt q := by
  have h : (pkt.sized winsize).msgType = pkt.msgType ∧ (pkt.sized winsize).len = pkt.len := by
    unfold Packet.sized
    split
    · exact ⟨(‹pkt.msgType = _›).symm, rfl⟩
    · exact ⟨rfl, rfl⟩
  unfold Talk.next
  rw [h.1, h.2]

/-- An operation of `event_loop`, which an attached client only comes to. -/
def Op.ofLoop : Op → Bool
  | .check | .select | .server | .stdin | .winch | .getWinsize => true
  | _ => false

/-- The packets still to be sent come in order. -/
def Talks (method : Byte) : Talk → List Op → Prop
  | _, [] => True
  | q, .send pkt :: ops | q, .request pkt _ :: ops => ∃ q', Talk.next method pkt q = some q' ∧ Talks method q' ops
  | q, op :: ops => (op.ofLoop = true → q = .attached) ∧ Talks method q ops

/-- No operation that the order of the packets is about. -/
def Op.silent : Op → Bool
  | .send _ | .request _ _ => false
  | op => !op.ofLoop

theorem talks_append {method : Byte} {q : Talk} {ops : List Op} : ∀ (pre : List Op), (∀ op ∈ pre, op.silent = true) →
    (Talks method q (pre ++ ops) ↔ Talks method q ops)
  | [], _ => Iff.rfl
  | op :: pre, h => by
    have ih := @talks_append method q ops pre (fun x hx => h x (List.mem_cons_of_mem _ hx))
    have hop := h op List.mem_cons_self
    rw [List.cons_append, ← ih]
    cases op with
    | send pkt | request pkt what | check | select | server | stdin | winch | getWinsize => cases hop
    | _ => simp [Talks, Op.ofLoop]

theorem silent_restoreAndExit (c : Attaching) (status : Nat) : ∀ op ∈ restoreAndExit c status, op.silent = true := by
  simp [restoreAndExit, Op.silent, Op.ofLoop]

theorem silent_announced (c : Attaching) (level : LogLevel) (what : String) :
    ∀ op ∈ announced c level what, op.silent = true := by
  simp [announced, Op.silent, Op.ofLoop]

theorem silent_leaving (c : Attaching) (level : LogLevel) (what : String) (status : Nat) :
    ∀ op ∈ announced c level what ++ restoreAndExit c status, op.silent = true := by
  intro op hop
  rcases List.mem_append.1 hop with h | h
  · exact silent_announced c level what op h
  · exact silent_restoreAndExit c status op h

theorem silent_failedRequest (c : Attaching) (what : String) : ∀ op ∈ failedRequest c what, op.silent = true := by
  unfold failedRequest
  split <;> simp [Op.silent, Op.ofLoop]

theorem talks_stdin {c : Attaching} {ops : List Op} (a : StdinAns) (h : Talks c.redrawMethod.toU8 .attached ops) :
    Talks c.redrawMethod.toU8 .attached ((handleStdinData c.keys a).flatMap (StdinAct.ops c) ++ ops) := by
  have hexit := fun n => (@talks_append c.redrawMethod.toU8 .attached ops _ (silent_restoreAndExit c n)).2 h
  unfold handleStdinData
  split
  · simpa [StdinAct.ops, Talks, Op.ofLoop] using hexit 1
  · exact h
  · simpa [StdinAct.ops, Talks, Op.ofLoop] using hexit 1
  · dsimp only
    split
    · -- the suspend key: a Detach, and the client attaches anew when it is continued
      simpa [StdinAct.ops, Talks, Op.ofLoop, Talk.next, Packet.new, Packet.encode, Packet.withData, MsgType.toU8,
        Attaching.keys] using h
    · split
      · simpa [StdinAct.ops, Talks, Op.ofLoop] using hexit 0
      · split <;> simpa [StdinAct.ops, Talks, Op.ofLoop, Talk.next, Packet.push] using h

/-- **What a loop operation puts before the rest** keeps the order. -/
theorem talks_opens {c : Attaching} {op : Op} {ops : List Op} (p : Proc) (a : OpAns) (hop : op.ofLoop = true)
    (h : Talks c.redrawMethod.toU8 .attached ops) : Talks c.redrawMethod.toU8 .attached (p.opens c a op ++ ops) := by
  cases op with
  | check =>
    simp only [Proc.opens]
    split
    · exact (talks_append _ (silent_leaving c _ _ 0)).2 h
    · exact ⟨fun _ => rfl, h⟩
  | select =>
    simp only [Proc.opens]
    unfold selectOps
    split
    · exact ⟨fun _ => rfl, h⟩
    · exact (talks_append _ (silent_leaving c _ _ 1)).2 h
    · split <;> split <;> exact (by simpa [Talks, Op.ofLoop] using h)
  | server =>
    simp only [Proc.opens]
    unfold handleServerData
    split
    · split
      · exact (talks_append _ (silent_restoreAndExit c 0)).2 h
      · exact (talks_append _ (silent_leaving c _ _ 0)).2 h
    · exact ⟨(fun h' => by cases h'), h⟩
    · exact (talks_append _ (silent_leaving c _ _ 1)).2 h
    · exact h
  | stdin => exact talks_stdin _ h
  | winch =>
    simp only [Proc.opens]
    split
    · exact ⟨fun _ => rfl, h⟩
    · exact h
  | getWinsize => exact ⟨.attached, rfl, h⟩
  | _ => cases hop

/-- **An operation** sends what is next, if anything, and keeps the order. -/
theorem talks_perform {c : Attaching} {q : Talk} {op : Op} {ops : List Op} (p : Proc) (a : OpAns)
    (h : Talks c.redrawMethod.toU8 q (op :: ops)) :
    ∃ q', q.after c.redrawMethod.toU8 (p.perform c a op).2 = some q' ∧
      Talks c.redrawMethod.toU8 q' (p.opens c a op ++ ops) := by
  cases op with
  | send pkt =>
    obtain ⟨q', hq', hops⟩ := h
    exact ⟨q', by simpa [Proc.perform, Talk.after, Seen.packet, Talk.next_sized] using hq', hops⟩
  | request pkt what =>
    obtain ⟨q', hq', hops⟩ := h
    refine ⟨q', by simpa [Proc.perform, Talk.after, Seen.packet, Talk.next_sized] using hq', ?_⟩
    simp only [Proc.opens]
    split
    · exact hops
    · exact (talks_append _ (silent_failedRequest c what)).2 hops
  | check =>
    obtain rfl : q = .attached := h.1 rfl
    exact ⟨_, rfl, talks_opens p a rfl h.2⟩
  | select =>
    obtain rfl : q = .attached := h.1 rfl
    exact ⟨_, rfl, talks_opens p a rfl h.2⟩
  | server =>
    obtain rfl : q = .attached := h.1 rfl
    refine ⟨.attached, ?_, talks_opens p a rfl h.2⟩
    simp only [Proc.perform]
    split <;> rfl
  | stdin =>
    obtain rfl : q = .attached := h.1 rfl
    exact ⟨_, rfl, talks_opens p a rfl h.2⟩
  | winch =>
    obtain rfl : q = .attached := h.1 rfl
    refine ⟨.attached, ?_, talks_opens p a rfl h.2⟩
    simp only [Proc.perform]
    split <;> rfl
  | getWinsize =>
    obtain rfl : q = .attached := h.1 rfl
    exact ⟨_, rfl, talks_opens p a rfl h.2⟩
  | print text =>
    refine ⟨q, ?_, h.2⟩
    simp only [Proc.perform]
    split <;> rfl
  | _ => exact ⟨q, rfl, h.2⟩

theorem talks_prologue (c : Attaching) :
    Talks c.redrawMethod.toU8 (.toAttach (if c.skipRing then 1 else 0)) (Proc.prologue c) := by
  refine (talks_append _ ?_).2 ⟨.toRedraw, if_pos ⟨rfl, rfl⟩, .attached, if_pos ⟨rfl, rfl⟩, fun _ => rfl, trivial⟩
  intro op hop
  rcases List.mem_append.1 hop with h | h
  · clear hop
    revert op
    simp [Op.silent, Op.ofLoop]
  · split at h
    · obtain rfl := List.mem_singleton.1 h
      rfl
    · split at h
      · obtain rfl := List.mem_singleton.1 h
        rfl
      · cases h

theorem talk_run (c : Attaching) (evs : List ProcEv) :
    ∃ q, (Talk.toAttach (if c.skipRing then 1 else 0)).after c.redrawMethod.toU8
        (run (Proc.step c) (Proc.begin c) evs).2 = some q ∧
      Talks c.redrawMethod.toU8 q (run (Proc.step c) (Proc.begin c) evs).1.todo := by
  let R : Proc → List Seen → Prop := fun p out =>
    ∃ q, (Talk.toAttach (if c.skipRing then 1 else 0)).after c.redrawMethod.toU8 out = some q ∧
      Talks c.redrawMethod.toU8 q p.todo
  have hbegin : R (Proc.begin c) [] := ⟨_, rfl, talks_prologue c⟩
  show R (run (Proc.step c) (Proc.begin c) evs).1 ([] ++ (run (Proc.step c) (Proc.begin c) evs).2)
  refine Along.history (R := R) ?_ hbegin (along_of_forall (P := fun _ _ => True) evs _ (fun _ _ _ => trivial))
  rintro p ev out ⟨q, hq, htalks⟩ -
  obtain ⟨a, op, ops, -, -, -, htodo, heq⟩ | ⟨bs, -, heq⟩ | ⟨p', quiet, heq, hquiet, htodo, -⟩ := Proc.step_cases c p ev
  · rw [htodo] at htalks
    obtain ⟨q', hq', hops⟩ := talks_perform { p with todo := ops } a htalks
    refine ⟨q', ?_, ?_⟩
    · rw [heq, Talk.after_append, hq]
      exact hq'
    · rw [heq]
      rcases Proc.perform_todo c { p with todo := ops } a op with ⟨-, hnil⟩ | ⟨-, hrest⟩
      · rw [hnil]
        trivial
      · rw [hrest]
        exact hops
  · rw [heq]
    exact ⟨q, by rw [Talk.after_append, hq]; rfl, htalks⟩
  · rw [heq]
    refine ⟨q, ?_, by rw [htodo]; exact htalks⟩
    rw [Talk.after_append, hq]
    rcases hquiet with ⟨rfl, -⟩ | ⟨rfl, -⟩ <;> rfl

/-- **The packets of a client come in order**, whatever it reads and whatever signals come: first an Attach, which asks for
the history unless the client has shown the log, then a Redraw; then Push and Winch, until a Detach, after which the next
packets are again an Attach and a Redraw. -/
theorem packets_in_order (c : Attaching) (evs : List ProcEv) :
    ∃ q, (Talk.toAttach (if c.skipRing then 1 else 0)).after c.redrawMethod.toU8
      (run (Proc.step c) (Proc.begin c) evs).2 = some q := by
  obtain ⟨q, hq, -⟩ := talk_run c evs
  exact ⟨q, hq⟩

/-! ## What is shown -/

def Seen.arrivedOf : Seen → List Byte
  | .arrived bs => bs
  | _ => []

def Seen.displayedOf : Seen → List Byte
  | .displayed bs => bs
  | _ => []

/-- What the session has sent, as it came. -/
def arrivedBytes (out : List Seen) : List Byte := out.flatMap Seen.arrivedOf

/-- What the client has shown of it. -/
def displayedBytes (out : List Seen) : List Byte := out.flatMap Seen.displayedOf

/-- What an operation still has to show. -/
def Op.shows : Op → List Byte
  | .display bs => bs
  | _ => []

/-- The standard output takes what the client shows it, and a `read` of the socket returns 0 only when the session has closed
it and all has been read. -/
def PassesOn (p : Proc) : ProcEv → Prop
  | .go a =>
    match p.todo with
    | .display bs :: _ => (writeBuf bs a.writes).1 = bs
    | .server :: _ => a.sock = .closed → p.closed = true ∧ p.unread = []
    | _ => True
  | _ => True

instance (p : Proc) (ev : ProcEv) : Decidable (PassesOn p ev) := by
  unfold PassesOn
  split
  · split <;> infer_instance
  · infer_instance

/-- Only a read of the socket leads to something to show. -/
theorem opens_shows {c : Attaching} {p : Proc} {a : OpAns} {op : Op} (h : op ≠ .server) :
    (p.opens c a op).flatMap Op.shows = [] := by
  cases op with
  | server => exact absurd rfl h
  | check =>
    simp only [Proc.opens]
    split <;> rfl
  | select =>
    simp only [Proc.opens]
    unfold selectOps
    split
    · rfl
    · rfl
    · split <;> split <;> rfl
  | request pkt what =>
    simp only [Proc.opens]
    split
    · rfl
    · unfold failedRequest
      split <;> rfl
  | stdin =>
    simp only [Proc.opens]
    rw [List.flatMap_assoc, List.flatMap_eq_nil_iff]
    intro act _
    cases act <;> rfl
  | winch =>
    simp only [Proc.opens]
    split <;> rfl
  | _ => rfl

/-- What is read is what is to be shown next. -/
theorem handleServerData_shows (c : Attaching) (age : String) (r : Except Errno (List Byte)) :
    (handleServerData c age r).flatMap Op.shows = gotten r ∧
      (handleServerData c age r).tail.flatMap Op.shows = [] := by
  unfold handleServerData
  split
  · split <;> exact ⟨rfl, rfl⟩
  · exact ⟨List.append_nil _, rfl⟩
  · exact ⟨rfl, rfl⟩
  · exact ⟨rfl, rfl⟩

/-- What an operation shows, when it is not a read of the socket. -/
theorem perform_seen {c : Attaching} {p : Proc} {a : OpAns} {op : Op} (h : op ≠ .server)
    (hs : ∀ bs, op = .display bs → (writeBuf bs a.writes).1 = bs) :
    displayedBytes (p.perform c a op).2 = op.shows ∧ arrivedBytes (p.perform c a op).2 = [] ∧
      .eof ∉ (p.perform c a op).2 ∧ (p.perform c a op).1.closed = p.closed ∧ (p.perform c a op).1.unread = p.unread := by
  have hhooks : (p.runHooks a.termTook).closed = p.closed ∧ (p.runHooks a.termTook).unread = p.unread := by
    unfold Proc.runHooks
    split
    · rw [Proc.restoreTerm_eq]
      exact ⟨rfl, rfl⟩
    · exact ⟨rfl, rfl⟩
  cases op with
  | server => exact absurd rfl h
  | display bs => exact ⟨by simp [displayedBytes, Proc.perform, Seen.displayedOf, Op.shows, hs bs rfl], rfl,
      by simp [Proc.perform], rfl, rfl⟩
  | setTerm t =>
    refine ⟨rfl, rfl, by simp [Proc.perform], ?_⟩
    simp only [Proc.perform, Proc.setTerm]
    split <;> exact ⟨rfl, rfl⟩
  | request pkt what =>
    refine ⟨rfl, rfl, by simp [Proc.perform], ?_⟩
    simp only [Proc.perform]
    split <;> exact ⟨rfl, rfl⟩
  | print text =>
    simp only [Proc.perform]
    split
    · exact ⟨rfl, rfl, by simp, rfl, rfl⟩
    · exact ⟨rfl, rfl, by simp, hhooks⟩
  | winch =>
    simp only [Proc.perform]
    split <;> exact ⟨rfl, rfl, by simp, rfl, rfl⟩
  | exit n => exact ⟨rfl, rfl, by simp [Proc.perform], hhooks⟩
  | _ => exact ⟨rfl, rfl, by simp [Proc.perform], rfl, rfl⟩

theorem read_end {r : ReadRet} {inp : List Byte} (h : r.ret inp bufsize = .ok []) : r = .closed := by
  cases r with
  | closed => rfl
  | fail e => cases h
  | avail n =>
    simp only [ReadRet.ret] at h
    split at h
    · cases h
    · rename_i hne
      have hlen := congrArg List.length (Except.ok.inj h)
      rw [List.length_take, List.length_nil, bufsize] at hlen
      omega

theorem displayedBytes_append (out out' : List Seen) :
    displayedBytes (out ++ out') = displayedBytes out ++ displayedBytes out' := List.flatMap_append

theorem arrivedBytes_append (out out' : List Seen) : arrivedBytes (out ++ out') = arrivedBytes out ++ arrivedBytes out' :=
  List.flatMap_append

/-- What has arrived is shown, to be shown next, or unread, and after the end of the stream it is shown. -/
structure Passes (p : Proc) (out : List Seen) : Prop where
  next : p.todo.tail.flatMap Op.shows = []
  bytes : displayedBytes out ++ (p.todo.flatMap Op.shows ++ p.unread) = arrivedBytes out
  eof : .eof ∈ out → p.closed = true ∧ p.todo.flatMap Op.shows ++ p.unread = []

/-- **A read of the socket** makes what it reads what is shown next. -/
theorem Passes.server {c : Attaching} {p : Proc} {out : List Seen} {a : OpAns} {ops : List Op}
    (h : Passes p out) (htodo : p.todo = .server :: ops) (hs : a.sock = .closed → p.closed = true ∧ p.unread = []) :
    Passes ({ p with todo := ops }.perform c a .server).1 (out ++ ({ p with todo := ops }.perform c a .server).2) := by
  obtain ⟨hnext, hbytes, heof⟩ := h
  rw [htodo] at hnext hbytes heof
  replace hnext : ops.flatMap Op.shows = [] := hnext
  rw [List.flatMap_cons, hnext, List.append_nil] at hbytes heof
  generalize hr : a.sock.ret p.unread bufsize = r
  obtain ⟨hshows, htail⟩ := handleServerData_shows c a.age r
  let rest := p.unread.drop (gotten r).length
  have hpass : (handleServerData c a.age r ++ ops).flatMap Op.shows ++ rest = p.unread := by
    rw [List.flatMap_append, hnext, hshows, List.append_nil]
    cases r with
    | ok bs => exact (ReadRet.ret_prefix hr).2.symm
    | error e => rfl
  have hstep : { p with todo := ops }.perform c a .server =
      ({ p with unread := rest, todo := handleServerData c a.age r ++ ops }, if r = .ok [] then [.eof] else []) := by
    simp only [Proc.perform, Proc.first, rest, ← hr]
  rw [hstep]
  have hseen : displayedBytes (if r = .ok [] then [.eof] else []) = [] ∧
      arrivedBytes (if r = .ok [] then [.eof] else []) = [] := by
    split <;> exact ⟨rfl, rfl⟩
  refine ⟨?_, ?_, fun hmem => ?_⟩
  · show (handleServerData c a.age r ++ ops).tail.flatMap Op.shows = []
    cases hops : handleServerData c a.age r with
    | nil =>
      rw [List.flatMap_eq_nil_iff] at hnext ⊢
      exact fun x hx => hnext x (List.mem_of_mem_tail hx)
    | cons op ops' =>
      rw [hops, List.tail_cons] at htail
      rw [List.cons_append, List.tail_cons, List.flatMap_append, htail, hnext]
      rfl
  · rw [displayedBytes_append, arrivedBytes_append, hseen.1, hseen.2, List.append_nil, List.append_nil]
    exact (congrArg _ hpass).trans hbytes
  · rw [show (_ : List Byte) ++ _ = p.unread from hpass]
    rcases List.mem_append.1 hmem with hmem | hmem
    · exact heof hmem
    · split at hmem
      · rename_i hend
        exact hs (read_end (hr.trans hend))
      · cases hmem

/-- **Any other operation** shows what it has to show, and reads nothing. -/
theorem Passes.perform {c : Attaching} {p : Proc} {out : List Seen} {a : OpAns} {op : Op} {ops : List Op}
    (h : Passes p out) (htodo : p.todo = op :: ops) (hop : op ≠ .server)
    (hs : ∀ bs, op = .display bs → (writeBuf bs a.writes).1 = bs) :
    Passes ({ p with todo := ops }.perform c a op).1 (out ++ ({ p with todo := ops }.perform c a op).2) := by
  obtain ⟨hnext, hbytes, heof⟩ := h
  rw [htodo] at hnext hbytes heof
  replace hnext : ops.flatMap Op.shows = [] := hnext
  rw [List.flatMap_cons, hnext, List.append_nil] at hbytes heof
  let q : Proc := { p with todo := ops }
  obtain ⟨hdisp, harr, hend, hclosed, hunread⟩ := perform_seen (c := c) (p := q) hop hs
  have htodo' : (q.perform c a op).1.todo.flatMap Op.shows = [] := by
    rcases Proc.perform_todo c q a op with ⟨-, hnil⟩ | ⟨-, hrest⟩
    · rw [hnil]
      rfl
    · rw [hrest, List.flatMap_append, opens_shows hop]
      exact hnext
  show Passes (q.perform c a op).1 (out ++ (q.perform c a op).2)
  refine ⟨?_, ?_, fun hmem => ?_⟩
  · rw [List.flatMap_eq_nil_iff] at htodo' ⊢
    exact fun x hx => htodo' x (List.mem_of_mem_tail hx)
  · rw [displayedBytes_append, arrivedBytes_append, hdisp, harr, htodo', hunread, List.append_nil, List.nil_append,
      List.append_assoc]
    exact hbytes
  · obtain ⟨hc, hnil⟩ := heof ((List.mem_append.1 hmem).resolve_right hend)
    rw [htodo', hunread, hclosed]
    exact ⟨hc, (List.append_eq_nil_iff.1 hnil).2⟩

theorem passes_run (c : Attaching) (evs : List ProcEv) (h : Along (Proc.step c) PassesOn (Proc.begin c) evs) :
    Passes (run (Proc.step c) (Proc.begin c) evs).1 (run (Proc.step c) (Proc.begin c) evs).2 := by
  have hbegin : Passes (Proc.begin c) [] := by
    have hnil : (Proc.begin c).todo.flatMap Op.shows = [] := by
      simp only [Proc.begin, Proc.prologue]
      split
      · rfl
      · split <;> rfl
    refine ⟨?_, by rw [hnil]; rfl, fun h => by cases h⟩
    rw [List.flatMap_eq_nil_iff] at hnil ⊢
    exact fun x hx => hnil x (List.mem_of_mem_tail hx)
  show Passes _ ([] ++ (run (Proc.step c) (Proc.begin c) evs).2)
  refine Along.history (R := Passes) ?_ hbegin h
  intro p ev out hp hs
  obtain ⟨a, op, ops, rfl, -, -, htodo, heq⟩ | ⟨bs, hopen, heq⟩ | ⟨p', quiet, heq, hquiet, htodo, hunread, hclosed, -⟩ :=
    Proc.step_cases c p ev
  · simp only [PassesOn, htodo] at hs
    rw [heq]
    by_cases hop : op = .server
    · subst hop
      exact hp.server htodo hs
    · apply hp.perform htodo hop
      rintro bs rfl
      exact hs
  · rw [heq]
    refine ⟨hp.next, ?_, fun hmem => ?_⟩
    · rw [displayedBytes_append, arrivedBytes_append, ← hp.bytes]
      simp [displayedBytes, arrivedBytes, Seen.displayedOf, Seen.arrivedOf]
    · rw [(hp.eof (by simpa using hmem)).1] at hopen
      cases hopen
  · rw [heq]
    have hnone : displayedBytes quiet = [] ∧ arrivedBytes quiet = [] ∧ .eof ∉ quiet := by
      rcases hquiet with ⟨rfl, -⟩ | ⟨rfl, -⟩
      · exact ⟨rfl, rfl, by simp⟩
      · exact ⟨rfl, rfl, by simp⟩
    refine ⟨by rw [htodo]; exact hp.next, ?_, fun hmem => ?_⟩
    · rw [displayedBytes_append, arrivedBytes_append, hnone.1, hnone.2.1, htodo, hunread, List.append_nil, List.append_nil]
      exact hp.bytes
    obtain ⟨hc, hnil⟩ := hp.eof ((List.mem_append.1 hmem).resolve_right hnone.2.2)
    exact ⟨hclosed hc, by rw [htodo, hunread]; exact hnil⟩

/-- **What the session sends is shown as it came**, whatever else the client does and whatever signals come: what is shown,
what the next operation shows, none after that showing anything, and what is unread is what has arrived, in its order; and
when the client has read the end of the stream, all of it has been shown. -/
theorem shown_as_it_came (c : Attaching) (evs : List ProcEv) (h : Along (Proc.step c) PassesOn (Proc.begin c) evs) :
    let r := run (Proc.step c) (Proc.begin c) evs
    displayedBytes r.2 ++ r.1.todo.flatMap Op.shows ++ r.1.unread = arrivedBytes r.2 ∧
      r.1.todo.tail.flatMap Op.shows = [] ∧ (.eof ∈ r.2 → displayedBytes r.2 = arrivedBytes r.2) := by
  have hp := passes_run c evs h
  refine ⟨by rw [List.append_assoc]; exact hp.bytes, hp.next, fun hmem => ?_⟩
  have hbytes := hp.bytes
  rw [(hp.eof hmem).2, List.append_nil] at hbytes
  exact hbytes

/-- A session that sends three bytes and closes, while the window changes. -/
def threeShown : List ProcEv :=
  let go (sock : ReadRet) : ProcEv := .go { plainAns with ready := .ok (true, false), sock := sock }
  .arrive [104, 105] :: List.replicate 13 (go (.avail 2)) ++ [.winch, .arrive [10]] ++ List.replicate 5 (go (.avail 2)) ++
    [.close] ++ List.replicate 12 (go .closed)

theorem shown_as_it_came_three :
    let r := run (Proc.step plainClient) (Proc.begin plainClient) threeShown
    r.1.ending = some (.exited 0) ∧ displayedBytes r.2 = arrivedBytes r.2 ∧ displayedBytes r.2 = [104, 105, 10] :=
  ⟨by decide +kernel, (shown_as_it_came plainClient threeShown (by decide +kernel)).2.2 (by decide +kernel), by decide +kernel⟩

end Zatch
