import Zatch.Delivery
/-!
# Descriptors — which descriptors are open, and which `select` is given

The life of a descriptor is a machine fed with what the daemon does (`fdStep`).  What an act does about a descriptor is
said once (`act_events`): nothing, or it opens one that is not in use, or it closes the one client on it and removes the
client.  So the clients' descriptors are the open ones, each is closed once, and none that is closed is given to `select`
(`descriptors_open_and_closed_once`).
-/
namespace Zatch

open Machine (run Along)

inductive FdState
  | unseen
  | opened
  | closed
deriving DecidableEq, Repr

/-- An effect that opens or closes the descriptor. -/
def Effect.about (f : RawFd) : Effect → Bool
  | .accepted g => decide (g = f)
  | .closed g => decide (g = f)
  | _ => false

def fdStep (f : RawFd) (s : FdState) (e : Effect) : FdState × List Empty :=
  match e with
  | .accepted g => (if g = f then .opened else s, [])
  | .closed g => (if g = f then .closed else s, [])
  | _ => (s, [])

/-- A descriptor after everything in the trace. -/
def fdState (f : RawFd) (fx : List Effect) : FdState := (run (fdStep f) .unseen fx).1

def eventsOf (f : RawFd) (fx : List Effect) : List Effect := fx.filter (Effect.about f)

/-- Whenever the descriptor is closed it is open. -/
def ClosesOpen (f : RawFd) (fx : List Effect) : Prop :=
  Along (fdStep f) (fun s e => e = .closed f → s = .opened) .unseen fx

section
variable (f : RawFd) (fx fy : List Effect)

@[simp] theorem eventsOf_append : eventsOf f (fx ++ fy) = eventsOf f fx ++ eventsOf f fy := List.filter_append _ _

theorem fdStep_of_not_about {e : Effect} (h : e.about f = false) (s : FdState) : fdStep f s e = (s, []) := by
  cases e with
  | accepted g => simp only [fdStep, if_neg (of_decide_eq_false h)]
  | closed g => simp only [fdStep, if_neg (of_decide_eq_false h)]
  | _ => rfl

theorem fdState_append : fdState f (fx ++ fy) = (run (fdStep f) (fdState f fx) (eventsOf f fy)).1 := by
  rw [fdState, Machine.run_append, eventsOf, Machine.run_filter (fun e he s => fdStep_of_not_about f he s)]
  rfl

theorem closesOpen_append : ClosesOpen f (fx ++ fy) ↔
    ClosesOpen f fx ∧ Along (fdStep f) (fun s e => e = .closed f → s = .opened) (fdState f fx) (eventsOf f fy) := by
  have hskip : ∀ e : Effect, e.about f = false → ∀ s : FdState, e = .closed f → s = .opened := fun e he s hcl => by
    rw [hcl] at he
    simp [Effect.about] at he
  rw [ClosesOpen, Machine.along_append, eventsOf,
    Machine.along_filter (fun e he s => fdStep_of_not_about f he s) (fun e he s => hskip e he s)]
  rfl

end

theorem fdState_of_no_events {f : RawFd} {fx : List Effect} (h : eventsOf f fx = []) : fdState f fx = .unseen := by
  have := fdState_append f [] fx
  rw [List.nil_append, h] at this
  exact this

/-- A descriptor that is not open stays so until it is accepted. -/
theorem fdState_not_opened {f : RawFd} {s : FdState} (hs : s ≠ .opened) {fx : List Effect} (h : .accepted f ∉ fx) :
    (run (fdStep f) s fx).1 ≠ .opened := by
  have hstep : ∀ (s : FdState) (e : Effect), s ≠ .opened → e ≠ .accepted f → (fdStep f s e).1 ≠ .opened := by
    intro s e hs he
    cases e with
    | accepted g =>
      have hg : g ≠ f := fun hg => he (by rw [hg])
      simpa only [fdStep, if_neg hg] using hs
    | closed g =>
      simp only [fdStep]
      split
      · exact FdState.noConfusion
      · exact hs
    | _ => exact hs
  have hnone : Along (fdStep f) (fun _ e => e ≠ .accepted f) s fx := by
    rw [Machine.along_iff]
    rintro pre e post rfl rfl
    exact h (by simp)
  exact Along.inv (I := (· ≠ .opened)) hstep hs hnone

/-- **Two closings of one descriptor have an accept between them.** -/
theorem ClosesOpen.once {f : RawFd} {fx : List Effect} (h : ClosesOpen f fx) {pre mid post : List Effect}
    (hfx : fx = pre ++ .closed f :: (mid ++ .closed f :: post)) : .accepted f ∈ mid := by
  by_contra hno
  have hopen := (Machine.along_iff _ _ _).1 h (pre ++ .closed f :: mid) (.closed f) post (by rw [hfx]; simp) rfl
  rw [Machine.run_append, Machine.run_cons] at hopen
  have hstate : (fdStep f (run (fdStep f) .unseen pre).1 (.closed f)).1 = .closed := by simp [fdStep]
  rw [hstate] at hopen
  exact fdState_not_opened FdState.noConfusion hno hopen

theorem eventsOf_of_not_about {f : RawFd} {fx : List Effect} (h : ∀ e ∈ fx, e.about f = false) : eventsOf f fx = [] := by
  apply List.filter_eq_nil_iff.2
  intro e he
  simp [h e he]

theorem about_of_plain {fx : List Effect} (h : ∀ e ∈ fx, e.plain = true) (f : RawFd) : ∀ e ∈ fx, e.about f = false := by
  intro e he
  have := h e he
  cases e <;> first | rfl | cases this

/-- The closings of a list of descriptors that has this one at most once. -/
theorem eventsOf_closed (f : RawFd) (fds : List RawFd) :
    eventsOf f (fds.map .closed) = (fds.filter (fun g => decide (g = f))).map .closed := by
  rw [eventsOf, List.filter_map]
  rfl

namespace SessionDaemon

theorem mem_fds_iff {cs : List Client} {f : RawFd} : f ∈ cs.map (·.fd) ↔ clientsAt cs f ≠ [] := by
  constructor
  · intro h hnil
    exact not_mem_fds_of_clientsAt hnil h
  · intro h
    obtain ⟨c, hc⟩ := List.exists_mem_of_ne_nil _ h
    exact List.mem_map.2 ⟨c, mem_clientsAt.1 hc⟩

/-- The closings of the clients that satisfy `p`, at one descriptor. -/
theorem eventsOf_closed_filter (p : Client → Bool) (cs : List Client) (f : RawFd) :
    eventsOf f (((cs.filter p).map (·.fd)).map .closed) = ((clientsAt cs f).filter p).map (fun c => .closed c.fd) := by
  have hswap : (cs.filter p).filter (fun c => decide (c.fd = f)) = (clientsAt cs f).filter p := by
    simp only [clientsAt, List.filter_filter, Bool.and_comm]
  rw [eventsOf_closed, List.filter_map, List.map_map, ← hswap]
  rfl

/-! ## What an act does about a descriptor -/

def has (d : SessionDaemon) (f : RawFd) : Bool := decide (f ∈ d.clients.map (·.fd))

/-- What an act does about a descriptor: whether a client has it afterwards, and the events. -/
inductive FdAct (d : SessionDaemon) (f : RawFd) : Bool → List Effect → Prop
  | still : FdAct d f (d.has f) []
  | taken (h : d.Unused f) : FdAct d f true [.accepted f]
  | rejected (h : d.Unused f) : FdAct d f false [.accepted f, .closed f]
  | dropped (h : d.has f = true) : FdAct d f false [.closed f]

theorem has_eq_false {d : SessionDaemon} {f : RawFd} (h : clientsAt d.clients f = []) : d.has f = false :=
  decide_eq_false (not_mem_fds_of_clientsAt h)

theorem has_eq_true {d : SessionDaemon} {f : RawFd} {c : Client} (h : clientsAt d.clients f = [c]) : d.has f = true :=
  decide_eq_true (mem_fds_iff.2 (by rw [h]; exact List.cons_ne_nil c []))

theorem logData_events (d : SessionDaemon) (data : List Byte) (took : Nat) (f : RawFd) :
    eventsOf f (d.logData data took).2 = [] := by
  unfold logData
  split <;> rfl

theorem accept_events (d : SessionDaemon) (fd : RawFd) (nb : Bool) (cred : Option Nat) (took : Nat) (f : RawFd) :
    eventsOf f (d.acceptClient (.conn fd nb cred) took).2 =
      if fd = f then (if nb then [.accepted f] else [.accepted f, .closed f]) else [] := by
  have hone : ∀ e : Effect, eventsOf f [e] = if e.about f then [e] else [] := fun e => by
    cases h : e.about f <;> simp [eventsOf, h]
  cases nb with
  | true =>
    show eventsOf f [.accepted fd] = _
    rw [hone]
    by_cases hf : fd = f <;> simp [Effect.about, hf]
  | false =>
    have hlog : eventsOf f (d.logWarn "could not set client socket non-blocking; connection rejected" took).2 = [] :=
      logData_events d _ took f
    show eventsOf f ([.accepted fd] ++ _ ++ [.closed fd]) = _
    rw [eventsOf_append, eventsOf_append, hlog, hone, hone]
    by_cases hf : fd = f <;> simp [Effect.about, hf]

theorem accept_fdAct {d : SessionDaemon} {r : AcceptRet} {took : Nat} (ha : d.Possible (.accept r took)) (f : RawFd) :
    FdAct d f ((d.act (.accept r took)).1.has f) (eventsOf f (d.act (.accept r took)).2) := by
  rcases r with ⟨fd, nb, cred⟩ | e
  · have hcl : (d.act (.accept (.conn fd nb cred) took)).1.clients = _ := acceptClient_clients d (.conn fd nb cred) took
    have hev : eventsOf f (d.act (.accept (.conn fd nb cred) took)).2 = _ := accept_events d fd nb cred took f
    rw [hev]
    by_cases hf : fd = f
    · subst hf
      rw [if_pos rfl]
      cases nb with
      | true =>
        have hin : (d.act (.accept (.conn fd true cred) took)).1.has fd = true := by
          rw [has, hcl]
          simp
        rw [hin]
        exact .taken ha
      | false =>
        have hout : (d.act (.accept (.conn fd false cred) took)).1.has fd = false := by
          rw [has, hcl]
          exact decide_eq_false ha.1
        rw [hout]
        exact .rejected ha
    · have hsame : (d.act (.accept (.conn fd nb cred) took)).1.has f = d.has f := by
        rw [has, has, hcl]
        cases nb <;> simp [Ne.symm hf]
      rw [if_neg hf, hsame]
      exact .still
  · exact .still

theorem packet_events (d : SessionDaemon) {i : Nat} {x : Client} (p : PacketAns) (hi : d.clients[i]? = some x) (f : RawFd) :
    eventsOf f (d.act (.packet i p)).2 = if x.next d.scrollback p = none ∧ x.fd = f then [.closed f] else [] := by
  obtain ⟨fx, hfx, hv⟩ := visit_spec d p hi
  have hquiet : eventsOf f (.read x.fd p.res :: fx) = [] := by
    apply eventsOf_of_not_about
    rcases hfx with ⟨hs, -⟩ | rfl
    · exact List.forall_mem_cons.2 ⟨rfl, about_of_plain hs f⟩
    · simp [Effect.about]
  rw [act_packet d p hi, hv]
  cases x.next d.scrollback p with
  | some x' => exact hquiet
  | none =>
    simp only
    rw [eventsOf_append, hquiet]
    by_cases hx : x.fd = f <;> simp [eventsOf, Effect.about, hx]

theorem packet_fdAct {d : SessionDaemon} (hn : (d.clients.map (·.fd)).Nodup) (i : Nat) (p : PacketAns) (f : RawFd) :
    FdAct d f ((d.act (.packet i p)).1.has f) (eventsOf f (d.act (.packet i p)).2) := by
  cases hi : d.clients[i]? with
  | none =>
    rw [act_packet_none d p hi]
    exact .still
  | some x =>
    rw [packet_events d p hi]
    by_cases hx : x.fd = f
    · subst hx
      have hself := packet_clientsAt_self p hi (nodup_clientsAt hn hi)
      have hb := has_eq_true (nodup_clientsAt hn hi)
      cases hnx : x.next d.scrollback p with
      | some x' =>
        rw [hnx] at hself
        rw [has_eq_true hself, ← hb]
        exact .still
      | none =>
        rw [hnx] at hself
        rw [has_eq_false hself, if_pos ⟨rfl, rfl⟩]
        exact .dropped hb
    · have hperm := packet_clientsAt_other p hi hx
      have hiff : f ∈ (d.act (.packet i p)).1.clients.map (·.fd) ↔ f ∈ d.clients.map (·.fd) := by
        rw [mem_fds_iff, mem_fds_iff, not_iff_not]
        exact ⟨fun h => List.Perm.eq_nil (h ▸ hperm.symm), fun h => List.Perm.eq_nil (h ▸ hperm)⟩
      have hsame : (d.act (.packet i p)).1.has f = d.has f := decide_eq_decide.2 hiff
      rw [hsame, if_neg (fun h => hx h.2)]
      exact .still

theorem evict_fdAct {d : SessionDaemon} (hn : (d.clients.map (·.fd)).Nodup) (f : RawFd) :
    FdAct d f ((d.act .evict).1.has f) (eventsOf f (d.act .evict).2) := by
  have hfx : eventsOf f (d.act .evict).2 =
      if d.evictAttached then ((clientsAt d.clients f).filter (·.attached)).map (fun c => .closed c.fd) else [] := by
    simp only [act, evict]
    split
    · rw [← eventsOf_closed_filter, List.map_map]
      rfl
    · rfl
  rw [hfx]
  rcases clientsAt_cases hn f with hnil | ⟨c, hc⟩
  · have hgone : clientsAt (d.act .evict).1.clients f = [] := by
      rcases (act_absent hnil .evict).2.2 with h | ⟨cred, took, h, -⟩
      · exact h
      · cases h
    rw [has_eq_false hgone, ← has_eq_false hnil, hnil, List.filter_nil, List.map_nil, ite_self]
    exact .still
  · have hat := evict_clientsAt hc
    obtain ⟨-, hf⟩ := fd_of_clientsAt hc
    have hb := has_eq_true hc
    rw [hc]
    split
    · rename_i he
      cases ha : c.attached with
      | true =>
        rw [if_pos ⟨he, ha⟩] at hat
        rw [has_eq_false hat, List.filter_cons_of_pos ha, List.filter_nil, List.map_singleton, hf]
        exact .dropped hb
      | false =>
        rw [if_neg (fun h => by rw [ha] at h; cases h.2)] at hat
        rw [has_eq_true hat, ← hb, List.filter_cons_of_neg (by simp [ha])]
        exact .still
    · rename_i he
      rw [if_neg (fun h => he h.1)] at hat
      rw [has_eq_true hat, ← hb]
      exact .still

/-! ## A chunk of output -/

theorem roundFx_events (data : List Byte) (w : Client → Option (Except Errno Nat)) (cs : List Client) (f : RawFd) :
    eventsOf f (roundFx data w cs) = ((clientsAt cs f).filter (fun c => isBad data (w c))).map (fun c => .closed c.fd) := by
  have hlive : eventsOf f (cs.flatMap (fun c => liveFx data c (w c))) = [] := by
    apply eventsOf_of_not_about
    intro e he
    obtain ⟨c, -, hc⟩ := List.mem_flatMap.1 he
    unfold liveFx at hc
    split at hc
    · rw [List.mem_singleton.1 hc]
      rfl
    · cases hc
  rw [roundFx, eventsOf_append, hlive, List.nil_append, badFds, eventsOf_closed_filter]

theorem roundFx_closes {data : List Byte} {w : Client → Option (Except Errno Nat)} {cs : List Client} {f : RawFd} {c : Client}
    (h : clientsAt cs f = [c]) : eventsOf f (roundFx data w cs) = if isBad data (w c) then [.closed f] else [] := by
  rw [roundFx_events, h, ← (fd_of_clientsAt h).2]
  cases hb : isBad data (w c) <;> simp [hb]

theorem sendLoop_events_absent (l : RawFd) (data : List Byte) {f : RawFd} : ∀ (rs : List Round) (cs : List Client),
    clientsAt cs f = [] → eventsOf f (sendLoop l data rs cs).fx = []
  | [], _, _ => rfl
  | r :: rs, cs, h => by
    cases hr : r.sel with
    | fail e =>
      rw [sendLoop, hr]
      cases e with
      | eintr => exact sendLoop_events_absent l data rs cs h
      | eagain => rfl
      | other n => rfl
    | ready rd w =>
      have hround : eventsOf f (roundFx data (roundWrites data r cs w) cs) = [] := by rw [roundFx_events, h]; rfl
      rw [sendLoop_ready l data r rs cs rd w hr]
      simp only
      split
      · exact hround
      · rw [eventsOf_append, hround, sendLoop_events_absent l data rs _ (clientsAt_kept_nil data _ h)]
        rfl

/-- **The loop closes a client once, and removes it then.** -/
theorem sendLoop_events (l : RawFd) (data : List Byte) {f : RawFd} {c : Client} : ∀ (rs : List Round) (cs : List Client),
    clientsAt cs f = [c] →
      (eventsOf f (sendLoop l data rs cs).fx = [] ∧ clientsAt (sendLoop l data rs cs).clients f = [c]) ∨
      (eventsOf f (sendLoop l data rs cs).fx = [.closed f] ∧ clientsAt (sendLoop l data rs cs).clients f = [])
  | [], _, h => .inl ⟨rfl, h⟩
  | r :: rs, cs, h => by
    cases hr : r.sel with
    | fail e =>
      rw [sendLoop, hr]
      cases e with
      | eintr => exact sendLoop_events l data rs cs h
      | eagain => exact .inl ⟨rfl, h⟩
      | other n => exact .inl ⟨rfl, h⟩
    | ready rd w =>
      have hround := @roundFx_closes data (roundWrites data r cs w) cs f c h
      have hkept := clientsAt_kept data (roundWrites data r cs w) h
      rw [sendLoop_ready l data r rs cs rd w hr]
      simp only
      cases hb : isBad data (roundWrites data r cs w c) with
      | true =>
        rw [hb, if_pos rfl] at hkept hround
        right
        split
        · exact ⟨hround, hkept⟩
        · rw [eventsOf_append, hround, sendLoop_events_absent l data rs _ hkept]
          exact ⟨rfl, (sendLoop_absent l data f rs _ hkept).1⟩
      | false =>
        rw [hb, if_neg Bool.false_ne_true] at hkept hround
        split
        · exact .inl ⟨hround, hkept⟩
        · rw [eventsOf_append, hround, List.nil_append]
          exact sendLoop_events l data rs _ hkept

theorem output_events (d : SessionDaemon) (data : List Byte) (took : Nat) (rounds : List Round) (f : RawFd) :
    eventsOf f (d.act (.output data took rounds)).2 = eventsOf f (d.sendToClients data rounds).fx := by
  obtain ⟨h1, h2⟩ := logData_keeps { d with scrollback := d.scrollback.append data } data took
  simp only [act, forward]
  rw [eventsOf_append, logData_events, List.nil_append]
  simp only [sendToClients, h1, h2]

theorem output_fdAct {d : SessionDaemon} (hn : (d.clients.map (·.fd)).Nodup) (data : List Byte) (took : Nat)
    (rounds : List Round) (f : RawFd) : FdAct d f ((d.act (.output data took rounds)).1.has f)
      (eventsOf f (d.act (.output data took rounds)).2) := by
  have hcl := @output_clients d data took rounds
  rw [output_events]
  rcases clientsAt_cases hn f with hnil | ⟨c, hc⟩
  · rw [has_eq_false (output_absent took rounds hnil).1, ← has_eq_false hnil]
    have hno : eventsOf f (d.sendToClients data rounds).fx = [] := by
      unfold sendToClients
      split
      · rfl
      · exact sendLoop_events_absent _ _ _ _ hnil
    rw [hno]
    exact .still
  · have hsend : (eventsOf f (d.sendToClients data rounds).fx = [] ∧
          clientsAt (d.sendToClients data rounds).clients f = [c]) ∨
        (eventsOf f (d.sendToClients data rounds).fx = [.closed f] ∧
          clientsAt (d.sendToClients data rounds).clients f = []) := by
      unfold sendToClients
      split
      · exact .inl ⟨rfl, hc⟩
      · exact sendLoop_events _ _ _ _ hc
    rw [← hcl] at hsend
    rcases hsend with ⟨he, hat⟩ | ⟨he, hat⟩
    · rw [he, has_eq_true hat, ← has_eq_true hc]
      exact .still
    · rw [he, has_eq_false hat]
      exact .dropped (has_eq_true hc)

/-- **What any act does about any descriptor.** -/
theorem act_events {d : SessionDaemon} (hn : (d.clients.map (·.fd)).Nodup) {a : Act} (ha : d.Possible a) (f : RawFd) :
    FdAct d f ((d.act a).1.has f) (eventsOf f (d.act a).2) := by
  cases a with
  | poll => exact .still
  | accept r took => exact accept_fdAct ha f
  | packet i p => exact packet_fdAct hn i p f
  | evict => exact evict_fdAct hn f
  | drain wfds ans =>
    have hquiet : eventsOf f (d.act (.drain wfds ans)).2 = [] := by
      apply eventsOf_of_not_about
      intro e he
      obtain ⟨fd, sent, rfl⟩ := mem_drain he
      rfl
    have hsame : (d.act (.drain wfds ans)).1.has f = d.has f := by
      simp only [has, act, drainReplay, List.map_map, Function.comp_def, drainClient_fd]
    rw [hquiet, hsame]
    exact .still
  | output data took rounds => exact output_fdAct hn data took rounds f

/-- A client that was on the descriptor leaves it as the descriptor is closed. -/
theorem FdAct.closed_iff {d : SessionDaemon} {f : RawFd} {b : Bool} {evs : List Effect} (h : FdAct d f b evs)
    (hf : d.has f = true) : Effect.closed f ∈ evs ↔ b = false := by
  cases h with
  | still => simp [hf]
  | taken hu => exact absurd (of_decide_eq_true hf) hu.1
  | rejected => simp
  | dropped => simp

theorem closed_act_iff {d : SessionDaemon} (hn : (d.clients.map (·.fd)).Nodup) {f : RawFd} {x : Client}
    (hx : clientsAt d.clients f = [x]) {a : Act} (ha : d.Possible a) :
    Effect.closed f ∈ (d.act a).2 ↔ clientsAt (d.act a).1.clients f = [] := by
  have hmem : Effect.closed f ∈ eventsOf f (d.act a).2 ↔ Effect.closed f ∈ (d.act a).2 :=
    ⟨fun h => (List.mem_filter.1 h).1, fun h => List.mem_filter.2 ⟨h, decide_eq_true rfl⟩⟩
  have hhas : (d.act a).1.has f = false ↔ clientsAt (d.act a).1.clients f = [] := by
    rw [has, decide_eq_false_iff_not, mem_fds_iff, not_not]
  rw [← hmem, (act_events hn ha f).closed_iff (has_eq_true hx), hhas]

theorem act_fixed (d : SessionDaemon) (a : Act) : (d.act a).1.listenerFd = d.listenerFd ∧ (d.act a).1.pty = d.pty := by
  cases a with
  | poll => exact ⟨rfl, rfl⟩
  | accept r took =>
    rcases r with ⟨fd, nb, cred⟩ | e
    · cases nb with
      | true => exact ⟨rfl, rfl⟩
      | false => simp only [act, acceptClient, logWarn, logData]; split <;> exact ⟨rfl, rfl⟩
    · exact ⟨rfl, rfl⟩
  | packet i p =>
    cases hi : d.clients[i]? with
    | none => rw [act_packet_none d p hi]; exact ⟨rfl, rfl⟩
    | some c =>
      obtain ⟨fx, -, hv⟩ := visit_spec d p hi
      rw [act_packet d p hi, hv]
      cases c.next d.scrollback p <;> exact ⟨rfl, rfl⟩
  | evict => simp only [act, evict]; split <;> exact ⟨rfl, rfl⟩
  | drain wfds ans => exact ⟨rfl, rfl⟩
  | output data took rounds => simp only [act, forward, logData]; split <;> exact ⟨rfl, rfl⟩

/-! ## Every reachable state -/

theorem FdAct.life {d : SessionDaemon} {f : RawFd} {b : Bool} {evs : List Effect} (h : FdAct d f b evs) {s : FdState}
    (hs : s = .opened ↔ d.has f = true) :
    ((run (fdStep f) s evs).1 = .opened ↔ b = true) ∧ Along (fdStep f) (fun s e => e = .closed f → s = .opened) s evs := by
  cases h with
  | still => exact ⟨hs, trivial⟩
  | taken hu => simp [Machine.run_cons, Machine.along_cons, fdStep]
  | rejected hu => simp [Machine.run_cons, Machine.along_cons, fdStep]
  | dropped hb => simp [Machine.run_cons, Machine.along_cons, fdStep, hs, hb]

/-- **In a reachable state the open descriptors are the clients'**, and no descriptor was closed that was not open. -/
theorem Reachable.fd_life {d : SessionDaemon} {tr : List Effect} (hd : Reachable d tr) (f : RawFd) :
    (fdState f tr = .opened ↔ d.has f = true) ∧ ClosesOpen f tr := by
  induction hd with
  | new log s g h => exact ⟨by simp [fdState, has, SessionDaemon.new], trivial⟩
  | @step d tr a hd ha ih =>
    obtain ⟨hopen, hcloses⟩ := ih
    obtain ⟨h1, h2⟩ := (act_events hd.nodup ha f).life hopen
    exact ⟨by rw [fdState_append]; exact h1, (closesOpen_append f tr _).2 ⟨hcloses, h2⟩⟩

/-- **The listener and the PTY are neither accepted nor closed**, and no client has their descriptors. -/
theorem Reachable.own_fds {d : SessionDaemon} {tr : List Effect} (hd : Reachable d tr) {f : RawFd}
    (hf : f = d.listenerFd ∨ f = d.pty.fd) : d.has f = false ∧ eventsOf f tr = [] := by
  induction hd with
  | new log s g h => exact ⟨rfl, rfl⟩
  | @step d tr a hd ha ih =>
    obtain ⟨hl, hp⟩ := act_fixed d a
    rw [hl, hp] at hf
    obtain ⟨hno, hnone⟩ := ih hf
    have hused : ¬ d.Unused f := fun hu => hf.elim hu.2.1 hu.2.2
    have hact := act_events hd.nodup ha f
    rw [eventsOf_append, hnone, List.nil_append]
    generalize (d.act a).1.has f = b, eventsOf f (d.act a).2 = evs at hact
    cases hact with
    | still => exact ⟨hno, rfl⟩
    | taken hu => exact absurd hu hused
    | rejected hu => exact absurd hu hused
    | dropped hb => rw [hno] at hb; cases hb

/-- The descriptors given to `select` in the loop of `send_to_clients`. -/
def innerSet (l : RawFd) (cs : List Client) : FdSet := l :: (cs.filter (·.attached)).map (·.fd)

/-- **The daemon's descriptors, in every reachable state**: the clients' are distinct, open, and neither the listener nor
the PTY; one is closed only while it is open, so once for each time it was accepted; and neither `select` is given one
that has been closed. -/
theorem descriptors_open_and_closed_once {d : SessionDaemon} {tr : List Effect} (hd : Reachable d tr) :
    (d.clients.map (·.fd)).Nodup ∧
    (∀ c ∈ d.clients, fdState c.fd tr = .opened ∧ c.fd ≠ d.listenerFd ∧ c.fd ≠ d.pty.fd) ∧
    (∀ f pre post, tr = pre ++ .closed f :: post → fdState f pre = .opened) ∧
    (∀ f pre mid post, tr = pre ++ .closed f :: (mid ++ .closed f :: post) → .accepted f ∈ mid) ∧
    (∀ f ∈ d.readSet ++ d.writeSet, fdState f tr ≠ .closed) ∧
    (∀ data took rounds, data ≠ [] → (d.sendToClients data rounds).returned = false →
      ∀ f ∈ innerSet d.listenerFd (d.sendToClients data rounds).clients,
        fdState f (tr ++ (d.act (.output data took rounds)).2) ≠ .closed) := by
  have hclient : ∀ {d : SessionDaemon} {tr : List Effect}, Reachable d tr → ∀ c ∈ d.clients, fdState c.fd tr = .opened :=
    fun hd c hc => (hd.fd_life c.fd).1.2 (decide_eq_true (List.mem_map.2 ⟨c, hc, rfl⟩))
  have hown : ∀ {d : SessionDaemon} {tr : List Effect}, Reachable d tr → ∀ {f}, f = d.listenerFd ∨ f = d.pty.fd →
      fdState f tr = .unseen := fun hd f hf => fdState_of_no_events (hd.own_fds hf).2
  refine ⟨hd.nodup, fun c hc => ⟨hclient hd c hc, fun hl => ?_, fun hp => ?_⟩, ?_, ?_, ?_, ?_⟩
  · have hopen := hclient hd c hc
    rw [hown hd (.inl hl)] at hopen
    cases hopen
  · have hopen := hclient hd c hc
    rw [hown hd (.inr hp)] at hopen
    cases hopen
  · exact fun f pre post htr => (Machine.along_iff _ _ _).1 (hd.fd_life f).2 pre (.closed f) post htr rfl
  · exact fun f pre mid post htr => (hd.fd_life f).2.once htr
  · intro f hf
    rcases List.mem_append.1 hf with hf | hf
    · rcases List.mem_cons.1 hf with hl | hf
      · rw [hown hd (.inl hl)]
        exact FdState.noConfusion
      · rcases List.mem_cons.1 hf with hp | hf
        · rw [hown hd (.inr hp)]
          exact FdState.noConfusion
        · obtain ⟨c, hc, rfl⟩ := List.mem_map.1 hf
          rw [hclient hd c hc]
          exact FdState.noConfusion
    · obtain ⟨c, hc, rfl⟩ := List.mem_map.1 hf
      rw [hclient hd c (List.mem_filter.1 hc).1]
      exact FdState.noConfusion
  · intro data took rounds hdata _ f hf
    -- in the loop the daemon is as the act leaves it
    have hnext : Reachable _ _ := .step (.output data took rounds) hd hdata
    rcases List.mem_cons.1 hf with hl | hf
    · rw [hown hnext (.inl (hl.trans (act_fixed d _).1.symm))]
      exact FdState.noConfusion
    · obtain ⟨c, hc, rfl⟩ := List.mem_map.1 hf
      rw [hclient hnext c (by rw [output_clients]; exact (List.mem_filter.1 hc).1)]
      exact FdState.noConfusion

/-- A connection ends, and the next one gets its descriptor. -/
def reusesFd : List Act :=
  [.accept (.conn 5 true none) 0, .packet 0 ⟨[], [.closed], [], .room 0, none⟩, .accept (.conn 5 true none) 0]

theorem reusesFd_reachable : Reachable (run act fresh reusesFd).1 (run act fresh reusesFd).2 :=
  fresh_reachable.of_run (by decide +kernel)

theorem reusesFd_open : Effect.closed 5 ∈ (run act fresh reusesFd).2 ∧
    fdState 5 (run act fresh reusesFd).2 = .opened :=
  ⟨by decide +kernel, ((descriptors_open_and_closed_once reusesFd_reachable).2.1 ⟨5, false, 0, 0, 0⟩
    (by decide +kernel)).1⟩

end SessionDaemon

end Zatch
