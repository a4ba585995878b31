import Zatch.Delivery
/-!
# Flags — `attached` and `replay_remaining`

The two fields that decide what a client is sent are set apart from each other.  Which packets bring a client to be
attached with its replay pending (`step_sound_iff`), and what a Detach leaves pending (`detach_silent_iff`).
-/
namespace Zatch

open Machine (run Along)

namespace SessionDaemon

/-! ## Attached while replaying -/

def Sound (d : SessionDaemon) : Prop := ∀ c ∈ d.clients, ¬ (c.attached = true ∧ 0 < c.replayRemaining)

/-- The answers to the writes of a drain of `n` bytes from slot `h` take it whole: each is asked for what is left up to
the end of the ring, and none refuses before the end. -/
def LetsThrough (h n : Nat) : List WriteRet → Prop
  | [] => n = 0
  | .room m :: ws =>
    let k := min m (min (scrollbackSize - h) n)
    n = 0 ∨ LetsThrough ((h + k) % scrollbackSize) (n - k) ws
  | .fail .eintr :: ws => n = 0 ∨ LetsThrough h n ws
  | .fail _ :: _ => n = 0

instance decidableLetsThrough : ∀ (h n : Nat) (ws : List WriteRet), Decidable (LetsThrough h n ws)
  | _, n, [] => inferInstanceAs (Decidable (n = 0))
  | h, n, .room m :: ws =>
    have := decidableLetsThrough ((h + min m (min (scrollbackSize - h) n)) % scrollbackSize)
      (n - min m (min (scrollbackSize - h) n)) ws
    inferInstanceAs (Decidable (n = 0 ∨ LetsThrough _ _ ws))
  | h, n, .fail .eintr :: ws =>
    have := decidableLetsThrough h n ws
    inferInstanceAs (Decidable (n = 0 ∨ LetsThrough h n ws))
  | _, n, .fail .eagain :: _ => inferInstanceAs (Decidable (n = 0))
  | _, n, .fail (.other _) :: _ => inferInstanceAs (Decidable (n = 0))

/-- An Attach in turn: one answered at once comes from a client with no replay pending; one answered with a replay comes
from a client that is not attached, or that takes the whole replay at once. -/
def InTurn (d : SessionDaemon) : Act → Prop
  | .packet i p => ∀ c, d.clients[i]? = some c → ∀ pkt, p.Brings .attach pkt →
      if Client.atOnce d.scrollback pkt then c.replayRemaining = 0
      else c.attached = true → LetsThrough d.scrollback.head d.scrollback.len p.writes
  | _ => True

instance (d : SessionDaemon) (a : Act) : Decidable (InTurn d a) :=
  match a with
  | .packet i p => decidable_of_iff (∀ c ∈ d.clients[i]?, ∀ pkt ∈ p.res.toOption,
      MsgType.fromU8 pkt.msgType = some .attach → if Client.atOnce d.scrollback pkt then c.replayRemaining = 0
        else c.attached = true → LetsThrough d.scrollback.head d.scrollback.len p.writes) (by
    unfold InTurn PacketAns.Brings
    cases hres : p.res <;> simp [Except.toOption, hres])
  | .poll | .accept _ _ | .evict | .drain _ _ | .output _ _ _ => isTrue trivial

theorem drain_all_iff (sb : Scrollback) : ∀ (ws : List WriteRet) (rs : ReplayState),
    (ReplayState.drain sb rs ws).rs.remaining = 0 ↔ LetsThrough rs.head rs.remaining ws
  | [], rs => Iff.rfl
  | .room m :: ws, rs => by
    by_cases hn : 0 < rs.remaining
    · rw [LetsThrough, or_iff_right (by omega), ReplayState.drain, if_pos hn]
      have := drain_all_iff sb ws ⟨(rs.head + min m (min (scrollbackSize - rs.head) rs.remaining)) % scrollbackSize,
        rs.remaining - min m (min (scrollbackSize - rs.head) rs.remaining)⟩
      simpa only [WriteRet.ret, land_mask] using this
    · rw [ReplayState.drain, if_neg hn, LetsThrough]
      exact ⟨.inl, fun _ => Nat.eq_zero_of_not_pos hn⟩
  | .fail e :: ws, rs => by
    by_cases hn : 0 < rs.remaining
    · rw [ReplayState.drain, if_pos hn]
      cases e with
      | eintr =>
        rw [LetsThrough, or_iff_right (by omega)]
        exact drain_all_iff sb ws rs
      | eagain => exact Iff.rfl
      | other k => exact Iff.rfl
    · rw [ReplayState.drain, if_neg hn]
      cases e with
      | eintr => exact ⟨.inl, fun _ => Nat.eq_zero_of_not_pos hn⟩
      | eagain => exact Iff.rfl
      | other k => exact Iff.rfl

/-- **A step keeps the two flags apart exactly when it is no Attach out of turn.** -/
theorem step_sound_iff (d : SessionDaemon) (a : Act) (h : Sound d) : Sound (d.act a).1 ↔ InTurn d a := by
  constructor
  · intro hs
    cases a with
    | packet i p =>
      intro c hi pkt hp
      have hset : (d.act (.packet i p)).1.clients = d.clients.set i
          (if Client.atOnce d.scrollback pkt then { c with attached := true }
            else c.drained (Client.firstDrain d.scrollback p.writes)) := by
        rw [packet_clients d p hi, Client.next_attach hp]
      have hnew := hs _ (by rw [hset]; exact List.mem_set (List.getElem?_eq_some_iff.1 hi).1 _)
      split at hnew
      · rename_i hat
        rw [if_pos hat]
        simp only [true_and] at hnew
        omega
      · rename_i hat
        rw [if_neg hat]
        intro hatt
        refine (drain_all_iff d.scrollback.toScrollback p.writes ⟨d.scrollback.head, d.scrollback.len⟩).1 ?_
        by_contra hne
        exact hnew ⟨by simp [Client.drained, hatt], Nat.pos_of_ne_zero hne⟩
    | _ => trivial
  · intro hin c' hc'
    cases act_from hc' with
    | kept hc => exact h c' hc
    | accepted => exact fun hb => absurd hb.2 (Nat.lt_irrefl 0)
    | @read i p c c' hi hn =>
      have hc := h c (List.mem_of_getElem? hi)
      by_cases hp : ∃ pkt, p.Brings .attach pkt
      · obtain ⟨pkt, hp⟩ := hp
        have hturn := hin c hi pkt hp
        rw [Client.next_attach hp] at hn
        obtain rfl := Option.some.inj hn
        split
        · rename_i hat
          rw [if_pos hat] at hturn
          exact fun hb => absurd hb.2 (by simp [hturn])
        · rename_i hat
          rw [if_neg hat] at hturn
          rintro ⟨hatt, hrem⟩
          have hrem' : 0 < (Client.firstDrain d.scrollback p.writes).rs.remaining := hrem
          have hne : ¬ (Client.firstDrain d.scrollback p.writes).rs.remaining = 0 := by omega
          simp only [Client.drained, hne, and_false, if_false] at hatt
          exact hne ((drain_all_iff d.scrollback.toScrollback p.writes ⟨_, _⟩).2 (hturn hatt))
      · rcases Client.next_of_not_attach (fun pkt hpkt => hp ⟨pkt, hpkt⟩) hn with rfl | ⟨rfl, -⟩
        · exact hc
        · exact fun hb => Bool.noConfusion hb.1
    | @drained wfds ans c hc hrem =>
      rintro ⟨hatt, hrem'⟩
      rw [Client.drained_replayRemaining] at hrem'
      have hne :
          ¬ (ReplayState.drain d.scrollback.toScrollback ⟨c.replayHead, c.replayRemaining⟩ (ans c.fd)).rs.remaining = 0 := by
        omega
      simp only [Client.drained, hne, and_false, if_false] at hatt
      exact h c hc ⟨hatt, hrem⟩

/-- **No client is ever attached while its replay is pending, so none is sent live output then, exactly when every Attach
of the run came in turn.** -/
theorem never_live_while_replaying_iff (l : RawFd) (y : Pty) (log : Option SessionLog) (s g : String) (as : List Act)
    (hposs : Along act Possible (new l y log s g) as) :
    Along act InTurn (new l y log s g) as ↔ ∀ pre post, as = pre ++ post →
      Sound (run act (new l y log s g) pre).1 ∧
      ∀ data took rounds, data ≠ [] → ∀ c ∈ (run act (new l y log s g) pre).1.clients, 0 < c.replayRemaining →
        liveTo c.fd ((run act (new l y log s g) pre).1.act (.output data took rounds)).2 = [] := by
  have hnew : Sound (new l y log s g) := fun c hc => by cases hc
  rw [Machine.along_iff_inv step_sound_iff as _ hnew]
  refine ⟨fun h pre post hs => ⟨h pre post hs, fun data took rounds hdata c hc hrem => ?_⟩,
    fun h pre post hs => (h pre post hs).1⟩
  have hn : ((run act (new l y log s g) pre).1.clients.map (·.fd)).Nodup := by
    rw [hs, Machine.along_append] at hposs
    exact Along.inv (I := fun d => (d.clients.map (·.fd)).Nodup) (fun d a hn ha => act_nodup hn ha) List.nodup_nil hposs.1
  refine live_of_not_attached (a := .output data took rounds) hn hdata (fun c' hc' hf => ?_)
  obtain rfl := eq_of_clientsAt (clientsAt_of_nodup hn hc) hc' hf
  exact Bool.eq_false_iff.2 (fun ha => h pre post hs c' hc ⟨ha, hrem⟩)

theorem bothAttach_never_live_while_replaying : Sound (run act fresh bothAttach).1 ∧
    ∀ data took rounds, data ≠ [] → ∀ c ∈ (run act fresh bothAttach).1.clients, 0 < c.replayRemaining →
      liveTo c.fd ((run act fresh bothAttach).1.act (.output data took rounds)).2 = [] :=
  (never_live_while_replaying_iff 3 ⟨4, 100⟩ none "s" "zatch" bothAttach bothAttach_possible).1 (by decide +kernel)
    bothAttach [] (List.append_nil _).symm

/-- A client connects, and three bytes are read from the PTY. -/
def threeRead : List Act := [.accept (.conn 5 true none) 0, .output [1, 2, 3] 3 []]

def partlyReplayed : List Act := threeRead ++ [.packet 0 (.whole (Packet.new .attach) [.room 1])]

/-- An Attach with `len` 1 in the middle of the replay. -/
theorem reaffirmed_while_replaying : ¬ ∀ as : List Act, Along act Possible fresh as → Sound (run act fresh as).1 := by
  intro h
  have hposs : Along act Possible fresh (partlyReplayed ++ [.packet 0 (.whole (Packet.encode .attach 1) [])]) := by
    decide +kernel
  have hcl : (run act fresh (partlyReplayed ++ [.packet 0 (.whole (Packet.encode .attach 1) [])])).1.clients =
      [⟨5, true, 1, 2, 0⟩] := by decide +kernel
  exact h _ hposs ⟨5, true, 1, 2, 0⟩ (by rw [hcl]; exact List.mem_cons_self) ⟨rfl, by decide⟩

/-! ## Detached -/

def NoAttach (f : RawFd) (d : SessionDaemon) : Act → Prop
  | .packet i p => ∀ c, d.clients[i]? = some c → c.fd = f → ∀ pkt, ¬ p.Brings .attach pkt
  | _ => True

/-- A descriptor with nothing to get: its client is not attached and has no replay pending. -/
def Quiet (f : RawFd) (d : SessionDaemon) : Prop :=
  ∀ c ∈ d.clients, c.fd = f → c.attached = false ∧ c.replayRemaining = 0

/-- Until an Attach comes from a descriptor, nothing of the PTY's output is sent to it and its client is not attached. -/
def SilentUntilAttach (f : RawFd) (d : SessionDaemon) : Prop :=
  ∀ as, Along act Possible d as → Along act (NoAttach f) d as →
    replayedTo f (run act d as).2 = [] ∧ liveTo f (run act d as).2 = [] ∧
    ∀ c ∈ (run act d as).1.clients, c.fd = f → c.attached = false

theorem drainClient_of_done (sb : Scrollback) (wfds : FdSet) (ans : RawFd → List WriteRet) {c : Client}
    (h : c.replayRemaining = 0) : drainClient sb wfds ans c = (c, []) := by
  unfold drainClient
  rw [if_neg (by omega)]

/-- **A quiet descriptor stays quiet**, and is sent nothing, until an Attach comes from it. -/
theorem quiet_step {f : RawFd} {d : SessionDaemon} (hn : (d.clients.map (·.fd)).Nodup) {a : Act} (hposs : d.Possible a)
    (hq : Quiet f d) (hno : NoAttach f d a) :
    replayedTo f (d.act a).2 = [] ∧ liveTo f (d.act a).2 = [] ∧ Quiet f (d.act a).1 := by
  suffices h : replayedTo f (d.act a).2 = [] ∧ liveTo f (d.act a).2 = [] ∧
      ∀ c' ∈ clientsAt (d.act a).1.clients f, c'.attached = false ∧ c'.replayRemaining = 0 from
    ⟨h.1, h.2.1, fun c' hc' hf => h.2.2 c' (mem_clientsAt.2 ⟨hc', hf⟩)⟩
  rcases clientsAt_cases hn f with hnil | ⟨c, hc⟩
  · obtain ⟨hrep, hlive, hcl⟩ := act_absent hnil a
    refine ⟨hrep, hlive, fun c' hc' => ?_⟩
    rcases hcl with hcl | ⟨cred, took, -, hcl⟩
    · rw [hcl] at hc'; cases hc'
    · rw [hcl, List.mem_singleton] at hc'
      subst hc'
      exact ⟨rfl, rfl⟩
  · obtain ⟨hmem, rfl⟩ := fd_of_clientsAt hc
    have hc0 := hq c hmem rfl
    have hstep := act_client hc hposs
    generalize clientsAt (d.act a).1.clients c.fd = after, replayedTo c.fd (d.act a).2 = rep,
      liveTo c.fd (d.act a).2 = lv at hstep ⊢
    cases hstep with
    | @packet i p hi =>
      refine ⟨Client.replayOn_of_not_attach (hno c hi rfl), rfl, fun c' hc' => ?_⟩
      rcases Client.next_of_not_attach (hno c hi rfl) (Option.mem_toList.1 hc') with rfl | ⟨rfl, -⟩
      · exact hc0
      · exact ⟨rfl, hc0.2⟩
    | evicted ha => exact ⟨rfl, rfl, by simp⟩
    | drained wfds ans =>
      rw [drainClient_of_done _ _ _ hc0.2]
      exact ⟨rfl, rfl, by simpa using hc0⟩
    | taken ha => rw [hc0.1] at ha; cases ha
    | cut ha => rw [hc0.1] at ha; cases ha
    | apart => exact ⟨rfl, rfl, by simpa using hc0⟩
    | passed => exact ⟨rfl, rfl, by simpa using hc0⟩

theorem quiet_run {f : RawFd} : ∀ {as : List Act} {d : SessionDaemon}, (d.clients.map (·.fd)).Nodup → Quiet f d →
    Along act Possible d as → Along act (NoAttach f) d as →
    replayedTo f (run act d as).2 = [] ∧ liveTo f (run act d as).2 = [] ∧ Quiet f (run act d as).1
  | [], _, _, hq, _, _ => ⟨rfl, rfl, hq⟩
  | a :: as, d, hn, hq, hposs, hno => by
    obtain ⟨hrep, hlive, hq'⟩ := quiet_step hn hposs.1 hq hno.1
    obtain ⟨h1, h2, h3⟩ := quiet_run (act_nodup hn hposs.1) hq' hposs.2 hno.2
    refine ⟨?_, ?_, h3⟩
    · rw [Machine.run_cons, replayedTo_append, hrep, h1, List.nil_append]
    · rw [Machine.run_cons, liveTo_append, hlive, h2, List.nil_append]

theorem drain_sends (r : Ring) {rs : ReplayState} (hh : rs.head < scrollbackSize) (hrem : 0 < rs.remaining) :
    (ReplayState.drain r.toScrollback rs [.room 1]).sent ≠ [] := by
  have hlen : 0 < (r.buf.drop rs.head).length := by rw [List.length_drop, r.buf_length]; omega
  rw [ReplayState.drain, if_pos hrem]
  simp only [WriteRet.ret, ReplayState.drain, List.append_nil]
  intro hnil
  have := congrArg List.length hnil
  rw [List.length_take, List.length_nil] at this
  omega

/-- **After a Detach nothing is sent to its client, and the client is not attached, until it sends an Attach, exactly when
it had no replay pending.** -/
theorem detach_silent_iff {d : SessionDaemon} {fx : List Effect} (hd : Reachable d fx) {i : Nat} {c : Client}
    (hi : d.clients[i]? = some c) {p : PacketAns} {pkt : Packet} (hp : p.Brings .detach pkt) :
    SilentUntilAttach c.fd (d.act (.packet i p)).1 ↔ c.replayRemaining = 0 := by
  have hself : clientsAt (d.act (.packet i p)).1.clients c.fd = [{ c with attached := false }] := by
    rw [packet_clientsAt_self p hi (nodup_clientsAt hd.nodup hi), Client.next_detach hp]
    rfl
  have hn : ((d.act (.packet i p)).1.clients.map (·.fd)).Nodup := act_nodup hd.nodup (a := .packet i p) trivial
  have hmem : c ∈ d.clients := List.mem_of_getElem? hi
  constructor
  · intro h
    by_contra hrem
    have hdrain := (h [.drain [c.fd] (fun _ => [.room 1])] ⟨trivial, trivial⟩ ⟨trivial, trivial⟩).1
    rw [Machine.run_singleton, drain_replayed, hself, List.flatMap_cons, List.flatMap_nil, List.append_nil, drainClient,
      if_pos ⟨Nat.pos_of_ne_zero hrem, by simp⟩] at hdrain
    have hnil : (ReplayState.drain (d.act (.packet i p)).1.scrollback.toScrollback ⟨c.replayHead, c.replayRemaining⟩
        [.room 1]).sent = [] := by
      simpa [Effect.replayOf] using hdrain
    exact drain_sends _ (hd.cursor_lt c hmem) (Nat.pos_of_ne_zero hrem) hnil
  · intro hrem as hposs hno
    have hq : Quiet c.fd (d.act (.packet i p)).1 := fun x hx hf => by
      obtain rfl := eq_of_clientsAt hself hx hf
      exact ⟨rfl, hrem⟩
    obtain ⟨h1, h2, h3⟩ := quiet_run hn hq hposs hno
    exact ⟨h1, h2, fun x hx hf => (h3 x hx hf).1⟩

theorem live_client_detaches :
    SilentUntilAttach 5 ((run act fresh bothAttach).1.act (.packet 0 (.whole (Packet.new .detach) []))).1 :=
  (detach_silent_iff bothAttach_reachable (c := ⟨5, true, 0, 0, 0⟩) (by rw [bothAttach_clients]; rfl)
    (PacketAns.whole_brings .detach 0 [])).2 rfl

/-- A Detach in the middle of the replay: the replay goes on and attaches the client again. -/
theorem detached_while_replaying : ¬ ∀ (as : List Act) (i : Nat) (c : Client) (p : PacketAns) (pkt : Packet),
    Along act Possible fresh as → (run act fresh as).1.clients[i]? = some c → p.Brings .detach pkt →
    SilentUntilAttach c.fd ((run act fresh as).1.act (.packet i p)).1 := by
  intro h
  have hcl : (run act fresh partlyReplayed).1.clients = [⟨5, false, 1, 2, 0⟩] := by decide +kernel
  have hend : (run act ((run act fresh partlyReplayed).1.act (.packet 0 (.whole (Packet.new .detach) []))).1
      [.drain [5] (fun _ => [.room 10])]).1.clients = [⟨5, true, 3, 0, 0⟩] := by decide +kernel
  have hsilent := h partlyReplayed 0 ⟨5, false, 1, 2, 0⟩ _ _ (by decide +kernel) (by rw [hcl]; rfl)
    (PacketAns.whole_brings .detach 0 [])
  have := (hsilent [.drain [5] (fun _ => [.room 10])] ⟨trivial, trivial⟩ ⟨trivial, trivial⟩).2.2 ⟨5, true, 3, 0, 0⟩
    (by rw [show Packet.encode .detach 0 = Packet.new .detach from rfl, hend]; exact List.mem_cons_self) rfl
  cases this

end SessionDaemon

end Zatch
