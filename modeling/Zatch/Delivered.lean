import Zatch.Conversation
/-!
# Delivered — what goes either way between a client and its session

What the daemon sends is what the client shows (`sent_is_shown`), and of a client that keeps up it is the session's output
without a gap (`nothing_is_missed`); what is typed at the client reaches the PTY as it was typed (`typed_reaches_pty`).
-/
namespace Zatch

open Machine (run Along)

namespace Joined

open SessionDaemon (act clientsAt)

variable (c : Attaching)

/-! ## What is sent is shown -/

/-- An operation of the client neither closes its connection nor makes anything arrive. -/
theorem perform_still (p : Proc) (a : OpAns) (op : Op) :
    (p.perform c a op).1.closed = p.closed ∧ arrivedBytes (p.perform c a op).2 = [] := by
  have hhooks : (p.runHooks a.termTook).closed = p.closed := by
    unfold Proc.runHooks
    split
    · rw [Proc.restoreTerm_eq]
    · rfl
  cases op with
  | setTerm t =>
    simp only [Proc.perform, Proc.setTerm]
    split <;> exact ⟨rfl, rfl⟩
  | request pkt what =>
    simp only [Proc.perform]
    split <;> exact ⟨rfl, rfl⟩
  | print text =>
    simp only [Proc.perform]
    split
    · exact ⟨rfl, rfl⟩
    · exact ⟨hhooks, rfl⟩
  | server =>
    simp only [Proc.perform]
    split <;> exact ⟨rfl, rfl⟩
  | winch =>
    simp only [Proc.perform]
    split <;> exact ⟨rfl, rfl⟩
  | exit n => exact ⟨hhooks, rfl⟩
  | _ => exact ⟨rfl, rfl⟩

theorem step_own (p : Proc) {ev : ProcEv} (h : ev.own = true) :
    (p.step c ev).1.closed = p.closed ∧ arrivedBytes (p.step c ev).2 = [] := by
  cases ev with
  | arrive bs => cases h
  | close => cases h
  | die took =>
    simp only [Proc.step]
    split
    · exact ⟨rfl, rfl⟩
    · rw [Proc.restoreTerm_eq]
      exact ⟨rfl, rfl⟩
  | winch =>
    simp only [Proc.step]
    split <;> exact ⟨rfl, rfl⟩
  | cont => exact ⟨rfl, rfl⟩
  | go a =>
    simp only [Proc.step]
    split
    · exact ⟨rfl, rfl⟩
    · split
      · exact ⟨rfl, rfl⟩
      · exact perform_still c _ a _

/-- While the connection is there the client has it open, and what has arrived is what the daemon has sent. -/
def Connected (s : Joined) : Prop := (s.link ≠ .cut → s.client.closed = false) ∧ arrivedBytes s.seen = s.down

theorem Connected.after {f : RawFd} {o : SessionDaemon × List Effect} {s : Joined} (h : Connected s) (hlink : s.link ≠ .cut) :
    Connected (after c f o s) := by
  obtain ⟨hopen, hdown⟩ := h
  have hclosed := hopen hlink
  refine ⟨fun hkept => ?_, ?_⟩
  · have hno : Effect.closed f ∉ o.2 := by
      intro hcl
      simp only [Joined.after, hcl, if_true] at hkept
      exact hkept rfl
    simp only [Joined.after, clientDoes, arrivals, hno, if_false, Machine.run_singleton, Proc.step, hclosed,
      Bool.false_eq_true]
  · simp only [Joined.after, clientDoes, run_arrivals, hclosed, Bool.false_eq_true, if_false]
    rw [arrivedBytes_append, hdown]
    exact congrArg _ (List.append_nil _)

theorem connected_step {s : Joined} (ev : Joint) (h : Connected s) : Connected (s.step c ev).1 := by
  cases ev with
  | client ev =>
    simp only [step]
    split
    · rename_i hown
      obtain ⟨hclosed, hnone⟩ := step_own c s.client hown
      refine ⟨fun hlink => ?_, ?_⟩
      · simp only [clientDoes, Machine.run_singleton]
        exact hclosed.trans (h.1 hlink)
      · simp only [clientDoes, Machine.run_singleton]
        rw [arrivedBytes_append, hnone, List.append_nil]
        exact h.2
    · exact h
  | accept r took =>
    simp only [step]
    split
    · rename_i hlink
      split
      · exact ⟨fun _ => h.1 (by rw [hlink]; simp), h.2⟩
      · refine ⟨fun hkept => absurd rfl hkept, ?_⟩
        simp only [clientDoes, Machine.run_singleton, Proc.step, List.append_nil]
        exact h.2
      · exact h
    · exact h
  | hears i p =>
    simp only [step]
    split
    · rename_i f hf
      have hlink : s.link ≠ .cut := by
        rw [(heardOn_eq_some hf).1]
        simp
      exact Connected.after c h hlink
    · exact h
  | daemon a =>
    simp only [step]
    split
    · exact h
    · split
      · rename_i f hf
        have hlink : s.link ≠ .cut := by
          rw [hf]
          simp
        exact Connected.after c h hlink
      · exact h
  | quits =>
    refine ⟨fun hkept => absurd rfl hkept, ?_⟩
    simp only [step, clientDoes, Machine.run_singleton, Proc.step, List.append_nil]
    exact h.2

theorem connected_run (d : SessionDaemon) (evs : List Joint) : Connected (run (step c) (begin c d) evs).1 :=
  Machine.run_inv (fun _ ev h => connected_step c ev h) evs _ ⟨fun _ => rfl, rfl⟩

theorem conversation_passes (d : SessionDaemon) (evs : List Joint) (h : Along (step c) (OfClient PassesOn) (begin c d) evs) :
    Passes (run (step c) (begin c d) evs).1.client (run (step c) (begin c d) evs).1.seen := by
  obtain ⟨cevs, halong, hrun⟩ := run_client c PassesOn (fun _ _ => trivial) (fun _ => trivial) d evs h
  have hp := passes_run c cevs halong
  rwa [hrun] at hp

/-- **What the session sends is what the client shows**, in every conversation, whatever either side does in between: shown, to
be shown and unread are together what the daemon has written to the connection, in its order; and when the client has read the
end of the stream, all of it has been shown. -/
theorem sent_is_shown (d : SessionDaemon) (evs : List Joint) (h : Along (step c) (OfClient PassesOn) (begin c d) evs) :
    let s := (run (step c) (begin c d) evs).1
    displayedBytes s.seen ++ s.client.todo.flatMap Op.shows ++ s.client.unread = s.down ∧
      (.eof ∈ s.seen → displayedBytes s.seen = s.down) := by
  have hp := conversation_passes c d evs h
  obtain ⟨-, hdown⟩ := connected_run c d evs
  have hbytes := hp.bytes
  rw [hdown] at hbytes
  refine ⟨by rw [List.append_assoc]; exact hbytes, fun hmem => ?_⟩
  rw [(hp.eof hmem).2, List.append_nil] at hbytes
  exact hbytes

theorem shortTalk_shown :
    let s := (run (step plainClient) (begin plainClient SessionDaemon.fresh) shortTalk).1
    s.down = [1, 2, 3] ∧ displayedBytes s.seen ++ s.client.todo.flatMap Op.shows ++ s.client.unread = s.down :=
  ⟨by decide +kernel, (sent_is_shown plainClient SessionDaemon.fresh shortTalk (by decide +kernel)).1⟩

/-! ## A client that keeps up -/

instance (s : Joined) (ev : Joint) : Decidable (KeepsUp s ev) :=
  match ev with
  | .hears _ p => inferInstanceAs (Decidable (∀ pkt ∈ packetOf (Packet.readFrom s.up p.reads).res,
      pkt.msgType ≠ MsgType.detach.toU8))
  | .daemon a =>
    match h : s.link with
    | .on f => decidable_of_iff (SessionDaemon.Feeds f s.d a)
        ⟨fun hf _ h' => Link.on.inj (h.symm.trans h') ▸ hf, fun h' => h' f h⟩
    | .queued | .cut => isTrue (fun _ h' => by cases h.symm.trans h')
  | .client _ | .accept _ _ | .quits => isTrue trivial

/-- What a client that keeps up has been sent, and is to be sent of its replay. -/
theorem continues_run (hskip : c.skipRing = false) {d : SessionDaemon} {tr : List Effect}
    (hd : SessionDaemon.Reachable d tr) (evs : List Joint) (hposs : Along (step c) Possible (begin c d) evs)
    (hwhole : Along (step c) (Whole c) (begin c d) evs) (hkeeps : Along (step c) KeepsUp (begin c d) evs) :
    Records (fun r => r.Agrees c.redrawMethod.toU8 0 ∧ r.Continues c.redrawMethod.toU8 d.scrollback.contents)
      (run (step c) (begin c d) evs).1 := by
  have hlen : (if c.skipRing then 1 else 0 : Byte) = 0 := by rw [hskip]; rfl
  refine records_run c _ True ?_ hd.nodup (fun fd cred => ⟨?_, ?_⟩) evs hposs hwhole (fun _ => hkeeps)
  · intro r e hr he hs ho
    rw [hlen] at ho
    exact ⟨hr.1.enter he ho, hr.2.enter hr.1 he (hs trivial) ho⟩
  · refine ⟨scrollbackSize_pos, fun _ => ⟨rfl, rfl, rfl⟩, fun q hq ha => ?_⟩
    obtain rfl := Option.some.inj hq
    cases ha
  · refine ⟨⟨_, rfl, fun h => absurd rfl h⟩, fun _ => ?_, fun h => absurd rfl h⟩
    rw [List.append_nil]
    exact (Cyclic.rtake_of_length_le _ _ (by rw [Ring.length_contents]; exact d.scrollback.len_le)).symm

/-- The PTY takes in full what a Push of the client's types. -/
def TakesTyped (s : Joined) : Joint → Prop
  | .hears _ p => ∀ pkt ∈ packetOf (Packet.readFrom s.up p.reads).res, pkt.pushes ≠ [] →
      SessionDaemon.InFull p.pty pkt.pushes.length
  | _ => True

instance (s : Joined) (ev : Joint) : Decidable (TakesTyped s ev) :=
  match ev with
  | .hears _ p => inferInstanceAs (Decidable (∀ pkt ∈ packetOf (Packet.readFrom s.up p.reads).res, pkt.pushes ≠ [] →
      SessionDaemon.InFull p.pty pkt.pushes.length))
  | .client _ | .accept _ _ | .daemon _ | .quits => isTrue trivial

theorem pushTook_act {d : SessionDaemon} {i : Nat} {x : Client} (hi : d.clients[i]? = some x) {p : SessionDaemon.PacketAns}
    {pkt : Packet} (hres : p.res = .ok pkt) (hfull : pkt.pushes ≠ [] → SessionDaemon.InFull p.pty pkt.pushes.length) :
    pushTook p.res (d.act (.packet i p)).2 = pkt.pushes := by
  rw [hres, pushTook]
  unfold Packet.pushes at hfull ⊢
  by_cases ht : pkt.msgType = MsgType.push.toU8
  · rw [if_pos ht] at hfull ⊢
    rw [if_pos ht]
    have htype : MsgType.fromU8 pkt.msgType = some .push := by rw [ht, MsgType.fromU8_toU8]
    have hact : ptyTook (d.act (.packet i p)).2 = ptyTook (d.handlePush pkt p.pty).fx := by
      obtain ⟨fx, hpush, -⟩ := SessionDaemon.handlePush_plain d pkt p.pty
      rw [SessionDaemon.act_packet d p hi]
      have hread : (Packet.readFrom p.inp p.reads).res = .ok pkt := hres
      simp only [SessionDaemon.visit, hread, SessionDaemon.dispatch, htype, hpush, if_true]
      rfl
    have hmin : pkt.data.take (min pkt.len.toNat pkt.data.length) = pkt.data.take pkt.len.toNat := by
      rcases Nat.le_total pkt.len.toNat pkt.data.length with h | h
      · rw [Nat.min_eq_left h]
      · rw [Nat.min_eq_right h, List.take_length, List.take_of_length_le h]
    rw [hact]
    unfold SessionDaemon.handlePush
    by_cases hpos : min pkt.len.toNat pkt.data.length > 0
    · rw [if_pos hpos, hmin]
      have hne : pkt.data.take pkt.len.toNat ≠ [] := by
        rw [← List.length_pos_iff, List.length_take]
        exact hpos
      exact ((SessionDaemon.ptyTook_ptyWrite _ _).2 hne).2 (hfull hne)
    · have hnil : pkt.data.take pkt.len.toNat = [] := by
        rw [← List.length_eq_zero_iff, List.length_take]
        omega
      rw [if_neg hpos, hnil]
      rfl
  · rw [if_neg ht, if_neg ht]

theorem reached_step {s : Joined} {ev : Joint} (h : s.reached = s.heard.flatMap Packet.pushes) (ht : TakesTyped s ev) :
    (s.step c ev).1.reached = (s.step c ev).1.heard.flatMap Packet.pushes := by
  cases ev with
  | client ev =>
    simp only [step]
    split <;> exact h
  | accept r took =>
    simp only [step]
    split
    · split <;> exact h
    · exact h
  | hears i p =>
    simp only [step]
    split
    · rename_i f hf
      obtain ⟨-, x, hi, -⟩ := heardOn_eq_some hf
      simp only [after, clientDoes]
      rw [List.flatMap_append, h]
      congr 1
      cases hres : (Packet.readFrom s.up p.reads).res with
      | error e => rfl
      | ok pkt =>
        have hfull := ht pkt (by rw [hres]; exact List.mem_singleton_self pkt)
        have hread : SessionDaemon.PacketAns.res { p with inp := s.up } = .ok pkt := hres
        have htook := pushTook_act hi hread hfull
        rw [hread] at htook
        rw [htook]
        exact (List.append_nil _).symm
    · exact h
  | daemon a =>
    simp only [step]
    split
    · exact h
    · split <;> exact h
  | quits => exact h

/-- **What is typed at the client reaches the PTY as it was typed**, in every conversation whose packets and typing are taken
whole, whatever either side does in between: the PTY has taken a first part of the reads that do not begin with a key, in
their order, and all of them whenever nothing is on its way and the client is back in its loop; with the keys disabled that
is everything typed. -/
theorem typed_reaches_pty (d : SessionDaemon) (evs : List Joint) (hwhole : Along (step c) (Whole c) (begin c d) evs)
    (hreads : Along (step c) (OfClient ReadsEight) (begin c d) evs) (htakes : Along (step c) TakesTyped (begin c d) evs) :
    let s := (run (step c) (begin c d) evs).1
    s.reached <+: passedBytes c.keys s.seen ∧
      (s.link ≠ .cut → s.up = [] → ∀ op ops, s.client.ending = none → s.client.todo = op :: ops → op.ofLoop = true →
        s.reached = passedBytes c.keys s.seen) ∧
      (c.noSuspend = true → c.detachChar < 0 → passedBytes c.keys s.seen = typedBytes s.seen) := by
  intro s
  obtain ⟨rest, hsent, hup⟩ := framed_run c d evs hwhole
  have hreached := Along.inv (I := fun s : Joined => s.reached = s.heard.flatMap Packet.pushes)
    (fun _ _ hs ht => reached_step c hs ht) (show (begin c d).reached = (begin c d).heard.flatMap Packet.pushes from rfl) htakes
  obtain ⟨cevs, halong, hrun⟩ := run_client c ReadsEight (fun _ _ => rfl) (fun _ => rfl) d evs hreads
  have htypes := types_run c cevs halong
  rw [hrun] at htypes
  have hpushed : pushedBytes s.seen = s.reached ++ rest.flatMap Packet.pushes := by
    show (s.seen.filterMap Seen.packet).flatMap Packet.pushes = _
    rw [show s.seen.filterMap Seen.packet = s.heard ++ rest from hsent, List.flatMap_append, ← hreached]
  refine ⟨?_, fun hlink hnil op ops hlive htodo hloop => ?_, fun hs hd => passedBytes_of_disabled hs hd _⟩
  · have hended := htypes.ended
    rw [show pushedBytes (run (step c) (begin c d) evs).1.seen = _ from hpushed] at hended
    exact (List.prefix_append _ _).trans hended
  · rw [nil_of_nothing_on_way ((hup hlink).symm.trans hnil), List.flatMap_nil, List.append_nil] at hpushed
    rw [← hpushed]
    exact htypes.all_sent hlive htodo hloop

theorem shortTalk_reaches :
    let s := (run (step plainClient) (begin plainClient SessionDaemon.fresh) shortTalk).1
    s.reached = [104, 105] ∧ s.reached <+: passedBytes plainClient.keys s.seen :=
  ⟨by decide +kernel, (typed_reaches_pty plainClient SessionDaemon.fresh shortTalk (by decide +kernel) (by decide +kernel)
    (by decide +kernel)).1⟩

end Joined

end Zatch
