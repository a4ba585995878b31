import Zatch.Flags
/-!
# Replay — what a replay sends when the session goes on writing

A replay is a cursor into a ring that is still appended to.  The bytes it has still to send stay what they were as long
as no chunk is written over them (`replay_prefix_of_spared`), and the replay joins the live stream without a gap when no
chunk is read before it is over (`replay_joins_live`).
-/
namespace Zatch

open Machine (run Along)

namespace SessionDaemon

/-- The bytes of a client's replay still to be sent. -/
def pending (d : SessionDaemon) (c : Client) : List Byte :=
  Cyclic.window d.scrollback.buf c.replayHead c.replayRemaining

/-- No byte of a chunk goes to a slot of the ring the client has still to be sent. -/
def Spares (r : Ring) (data : List Byte) (c : Client) : Prop :=
  ∀ j, j < data.length → ∀ k, k < c.replayRemaining →
    (r.tail + j) % scrollbackSize ≠ (c.replayHead + k) % scrollbackSize

def SparesAt (f : RawFd) (d : SessionDaemon) : Act → Prop
  | .output data _ _ => ∀ c ∈ d.clients, c.fd = f → Spares d.scrollback data c
  | _ => True

instance (r : Ring) (data : List Byte) (c : Client) : Decidable (Spares r data c) :=
  inferInstanceAs (Decidable (∀ j, j < data.length → ∀ k, k < c.replayRemaining →
    (r.tail + j) % scrollbackSize ≠ (c.replayHead + k) % scrollbackSize))

instance (f : RawFd) (d : SessionDaemon) (a : Act) : Decidable (SparesAt f d a) :=
  match a with
  | .output data _ _ => inferInstanceAs (Decidable (∀ c ∈ d.clients, c.fd = f → Spares d.scrollback data c))
  | .poll | .accept _ _ | .packet _ _ | .evict | .drain _ _ => isTrue trivial

theorem window_append_of_spares (r : Ring) {data : List Byte} {c : Client} (h : Spares r data c) :
    Cyclic.window (r.append data).buf c.replayHead c.replayRemaining =
      Cyclic.window r.buf c.replayHead c.replayRemaining := by
  refine Cyclic.window_write_of_disjoint r.tail_lt (r.rtake_le data) _ _ (fun j hj k hk => ?_)
  rw [r.buf_length]
  exact h j (by rw [Cyclic.length_rtake] at hj; omega) k hk

/-- **What a drain does to a pending replay**: it sends a first part of it and leaves the rest. -/
theorem drainClient_spec (r : Ring) (wfds : FdSet) (ans : RawFd → List WriteRet) {c : Client}
    (hc : c.replayHead < scrollbackSize) :
    replayedTo c.fd (drainClient r.toScrollback wfds ans c).2 ++
        Cyclic.window r.buf (drainClient r.toScrollback wfds ans c).1.replayHead
          (drainClient r.toScrollback wfds ans c).1.replayRemaining =
      Cyclic.window r.buf c.replayHead c.replayRemaining ∧
    ((c.replayRemaining = 0 → c.attached = true) →
      (drainClient r.toScrollback wfds ans c).1.replayRemaining = 0 →
      (drainClient r.toScrollback wfds ans c).1.attached = true) := by
  unfold drainClient
  split
  · refine ⟨?_, fun _ hzero => Client.drained_attached c hc hzero⟩
    simp only [replayedTo_cons, replayedTo_nil, Effect.replayOf, if_true, List.append_nil]
    exact ReplayState.drain_window r (ans c.fd) ⟨c.replayHead, c.replayRemaining⟩ hc
  · exact ⟨rfl, id⟩

/-- **What is sent of a replay and what is pending of it** make up the scrollback it was started on. -/
def Unspoiled (f : RawFd) (S : List Byte) (d : SessionDaemon) (fx : List Effect) : Prop :=
  replayedTo f fx <+: S ∧ ∀ c ∈ d.clients, c.fd = f → 0 < c.replayRemaining → replayedTo f fx ++ d.pending c = S

theorem unspoiled_step {f : RawFd} {S : List Byte} {d : SessionDaemon} {fx : List Effect}
    (hn : (d.clients.map (·.fd)).Nodup) (hcur : ∀ c ∈ d.clients, c.replayHead < scrollbackSize) {a : Act}
    (hposs : d.Possible a) (hno : NoAttach f d a) (hs : SparesAt f d a) (hU : Unspoiled f S d fx) :
    Unspoiled f S (d.act a).1 (fx ++ (d.act a).2) := by
  have hsb := act_scrollback d a
  rw [Unspoiled, replayedTo_append]
  suffices h : replayedTo f fx ++ replayedTo f (d.act a).2 <+: S ∧
      ∀ c' ∈ clientsAt (d.act a).1.clients f, 0 < c'.replayRemaining →
        replayedTo f fx ++ replayedTo f (d.act a).2 ++ (d.act a).1.pending c' = S from
    ⟨h.1, fun c' hc' hf => h.2 c' (mem_clientsAt.2 ⟨hc', hf⟩)⟩
  rcases clientsAt_cases hn f with hnil | ⟨c, hc⟩
  · obtain ⟨hrep, -, hcl⟩ := act_absent hnil a
    rw [hrep, List.append_nil]
    refine ⟨hU.1, fun c' hc' hrem => ?_⟩
    rcases hcl with hcl | ⟨cred, took, -, hcl⟩
    · rw [hcl] at hc'; cases hc'
    · rw [hcl, List.mem_singleton] at hc'
      subst hc'
      exact absurd hrem (Nat.lt_irrefl 0)
  · obtain ⟨hmem, rfl⟩ := fd_of_clientsAt hc
    have hold := hU.2 c hmem rfl
    have hstep := act_client hc hposs
    generalize clientsAt (d.act a).1.clients c.fd = after, replayedTo c.fd (d.act a).2 = rep,
      liveTo c.fd (d.act a).2 = lv at hstep ⊢
    unfold pending at hold ⊢
    cases hstep with
    | apart hchunk =>
      rw [List.append_nil, scrollback_of_not_output d hchunk]
      exact ⟨hU.1, by simpa using hold⟩
    | @packet i p hi =>
      rw [Client.replayOn_of_not_attach (hno c hi rfl), List.append_nil, hsb]
      refine ⟨hU.1, fun c' hc' hrem => ?_⟩
      rcases Client.next_of_not_attach (hno c hi rfl) (Option.mem_toList.1 hc') with rfl | ⟨rfl, -⟩
      · exact hold hrem
      · exact hold hrem
    | evicted | cut =>
      rw [List.append_nil]
      exact ⟨hU.1, by simp⟩
    | drained wfds ans =>
      rw [hsb]
      by_cases hrem : 0 < c.replayRemaining
      · have hwhole := hold hrem
        rw [← (drainClient_spec d.scrollback wfds ans (hcur c hmem)).1, ← List.append_assoc] at hwhole
        refine ⟨?_, fun c' hc' _ => ?_⟩
        · rw [← hwhole]
          exact List.prefix_append _ _
        · obtain rfl := List.mem_singleton.1 hc'
          exact hwhole
      · rw [drainClient_of_done _ _ _ (Nat.eq_zero_of_not_pos hrem), replayedTo_nil, List.append_nil]
        refine ⟨hU.1, fun c' hc' hrem' => ?_⟩
        obtain rfl := List.mem_singleton.1 hc'
        exact absurd hrem' hrem
    | passed | taken =>
      rw [List.append_nil, hsb]
      refine ⟨hU.1, fun c' hc' hrem => ?_⟩
      obtain rfl := List.mem_singleton.1 hc'
      rw [window_append_of_spares d.scrollback (hs c' hmem rfl)]
      exact hold hrem

theorem unspoiled_run {f : RawFd} {S : List Byte} : ∀ {as : List Act} {d : SessionDaemon} {tr fx : List Effect},
    Reachable d tr → Unspoiled f S d fx → Along act Possible d as → Along act (NoAttach f) d as →
    Along act (SparesAt f) d as → Unspoiled f S (run act d as).1 (fx ++ (run act d as).2)
  | [], d, _, fx, _, hU, _, _, _ => by
    rw [Machine.run_nil, List.append_nil]
    exact hU
  | a :: as, d, tr, fx, hd, hU, hposs, hno, hs => by
    have hstep := unspoiled_step hd.nodup hd.cursor_lt hposs.1 hno.1 hs.1 hU
    have := unspoiled_run (hd.step a hposs.1) hstep hposs.2 hno.2 hs.2
    rw [Machine.run_cons, ← List.append_assoc]
    exact this

theorem attach_replays {d : SessionDaemon} (hn : (d.clients.map (·.fd)).Nodup) {i : Nat} {c : Client}
    (hi : d.clients[i]? = some c) {p : PacketAns} {pkt : Packet} (hp : p.Brings .attach pkt)
    (hat : Client.atOnce d.scrollback pkt = false) :
    clientsAt (d.act (.packet i p)).1.clients c.fd = [c.drained (Client.firstDrain d.scrollback p.writes)] ∧
    replayedTo c.fd (d.act (.packet i p)).2 ++ (d.act (.packet i p)).1.pending
        (c.drained (Client.firstDrain d.scrollback p.writes)) = d.scrollback.contents ∧
    ((Client.firstDrain d.scrollback p.writes).rs.remaining = 0 →
      (c.drained (Client.firstDrain d.scrollback p.writes)).attached = true) := by
  have hclients : clientsAt (d.act (.packet i p)).1.clients c.fd =
      [c.drained (Client.firstDrain d.scrollback p.writes)] := by
    rw [packet_clientsAt_self p hi (nodup_clientsAt hn hi), Client.next_attach hp, hat]
    rfl
  have hsb := act_scrollback d (.packet i p)
  refine ⟨hclients, ?_, fun hzero => c.drained_attached d.scrollback.head_lt hzero⟩
  rw [packet_replayed d p hi, if_pos rfl, Client.replayOn_attach hp, hat, pending, hsb]
  simp only [Bool.false_eq_true, if_false, Client.drained_replayHead, Client.drained_replayRemaining]
  exact ReplayState.drain_window d.scrollback p.writes ⟨d.scrollback.head, d.scrollback.len⟩ d.scrollback.head_lt

theorem attach_unspoiled {d : SessionDaemon} (hn : (d.clients.map (·.fd)).Nodup) {i : Nat} {c : Client}
    (hi : d.clients[i]? = some c) {p : PacketAns} {pkt : Packet} (hp : p.Brings .attach pkt)
    (hat : Client.atOnce d.scrollback pkt = false) :
    Unspoiled c.fd d.scrollback.contents (d.act (.packet i p)).1 (d.act (.packet i p)).2 := by
  obtain ⟨hself, hwhole, -⟩ := attach_replays hn hi hp hat
  refine ⟨⟨_, hwhole⟩, fun x hx hf _ => ?_⟩
  obtain rfl := eq_of_clientsAt hself hx hf
  exact hwhole

/-- **The replay of an Attach, over every run**: as long as the chunks read spare what is still to be sent, it sends the
scrollback the Attach found, from its first byte on. -/
theorem replay_prefix_of_spared {d : SessionDaemon} {fx : List Effect} (hd : Reachable d fx) {i : Nat} {c : Client}
    (hi : d.clients[i]? = some c) {p : PacketAns} {pkt : Packet} (hp : p.Brings .attach pkt) (hlen : pkt.len = 0)
    {as : List Act} (hposs : Along act Possible (d.act (.packet i p)).1 as)
    (hno : Along act (NoAttach c.fd) (d.act (.packet i p)).1 as)
    (hspare : Along act (SparesAt c.fd) (d.act (.packet i p)).1 as) :
    (replayedTo c.fd ((d.act (.packet i p)).2 ++ (run act (d.act (.packet i p)).1 as).2)).take d.scrollback.len <+:
      d.scrollback.contents := by
  by_cases hS : d.scrollback.len = 0
  · rw [hS, List.take_zero]
    exact List.nil_prefix
  · have hU := attach_unspoiled hd.nodup hi hp (by simp [Client.atOnce, hlen, hS])
    have hd' : Reachable (d.act (.packet i p)).1 (fx ++ (d.act (.packet i p)).2) := hd.step (.packet i p) trivial
    exact (List.take_prefix _ _).trans (unspoiled_run hd' hU hposs hno hspare).1

theorem threeRead_clients : (run act fresh threeRead).1.clients = [⟨5, false, 0, 0, 0⟩] := by decide +kernel

theorem threeRead_reachable : Reachable (run act fresh threeRead).1 (run act fresh threeRead).2 :=
  fresh_reachable.of_run (by decide +kernel)

theorem threeRead_replayed : (replayedTo 5 (((run act fresh threeRead).1.act
    (.packet 0 (.whole (Packet.new .attach) [.room 1]))).2 ++ (run act ((run act fresh threeRead).1.act
    (.packet 0 (.whole (Packet.new .attach) [.room 1]))).1 [.output [4] 0 [], .drain [5] (fun _ => [.room 10])]).2)).take
      (run act fresh threeRead).1.scrollback.len <+: (run act fresh threeRead).1.scrollback.contents := by
  exact replay_prefix_of_spared threeRead_reachable (c := ⟨5, false, 0, 0, 0⟩) (by rw [threeRead_clients]; rfl)
    (PacketAns.whole_brings .attach 0 [.room 1]) rfl (by decide +kernel) ⟨trivial, trivial, trivial⟩ (by decide +kernel)

/-! ### Overrun -/

theorem run_outputs_unattached : ∀ (chunks : List (List Byte)) {d : SessionDaemon}, d.clients.filter (·.attached) = [] →
    (run act d (chunks.map (fun data => .output data 0 []))).1.clients = d.clients ∧
    (run act d (chunks.map (fun data => .output data 0 []))).1.scrollback = chunks.foldl Ring.append d.scrollback
  | [], d, _ => ⟨rfl, rfl⟩
  | data :: chunks, d, h => by
    have hcl : (d.act (.output data 0 [])).1.clients = d.clients := by
      rw [output_clients, sendToClients, if_pos h]
    have hsb := act_scrollback d (.output data 0 [])
    obtain ⟨h1, h2⟩ := run_outputs_unattached chunks (d := (d.act (.output data 0 [])).1) (by rw [hcl]; exact h)
    rw [List.map_cons, Machine.run_cons]
    exact ⟨h1.trans hcl, by rw [h2, hsb, List.foldl_cons]⟩

theorem drain_of_full (r : Ring) (h : r.len = scrollbackSize) (b : Byte) :
    (ReplayState.drain (r.append [b]).toScrollback ⟨r.head, r.len⟩ [.room 1]).sent = [b] := by
  have hh := r.head_lt
  have htail : r.tail = r.head := by rw [Ring.tail, h, Nat.add_mod_right, Nat.mod_eq_of_lt hh]
  have hmin : min 1 (min (scrollbackSize - r.head) r.len) = 1 := by rw [h]; omega
  have hbuf : (r.append [b]).buf = Cyclic.write r.buf r.head [b] := by
    show Cyclic.write r.buf r.tail ([b].rtake scrollbackSize) = _
    rw [htail, Cyclic.rtake_of_length_le _ _ scrollbackSize_pos]
  have hlen : (Cyclic.write r.buf r.head [b]).length = scrollbackSize := by rw [← hbuf, (r.append [b]).buf_length]
  rw [ReplayState.drain, if_pos (by rw [h]; exact scrollbackSize_pos)]
  simp only [WriteRet.ret, ReplayState.drain, List.append_nil, hmin, hbuf]
  rw [← Cyclic.window_eq_slice _ _ _ (by rw [hlen]; omega)]
  exact Cyclic.window_write_self (by rw [r.buf_length]; exact hh) (by rw [r.buf_length]; exact scrollbackSize_pos)

/-- A client connects, and the PTY's output fills the ring. -/
def ringFilled : List Act :=
  .accept (.conn 5 true none) 0 :: (List.replicate 32 (List.replicate 4096 97)).map (fun data => .output data 0 [])

theorem nodup_of_possible {as : List Act} (h : Along act Possible fresh as) :
    ((run act fresh as).1.clients.map (·.fd)).Nodup :=
  (fresh_reachable.of_run h).nodup

theorem ringFilled_possible : Along act Possible fresh ringFilled := by
  refine ⟨by decide, (Machine.along_iff _ _ _).2 (fun pre a post h => ?_)⟩
  obtain ⟨data, hdata, rfl⟩ := List.mem_map.1 (h ▸ List.mem_append_right pre List.mem_cons_self)
  rw [List.eq_of_mem_replicate hdata]
  exact List.cons_ne_nil 97 (List.replicate 4095 97)

theorem ringFilled_clients : (run act fresh ringFilled).1.clients = [⟨5, false, 0, 0, 0⟩] := by
  rw [ringFilled, Machine.run_cons]
  exact (run_outputs_unattached _ (by decide +kernel)).1.trans (by decide +kernel)

theorem ringFilled_contents : (run act fresh ringFilled).1.scrollback.contents = List.replicate scrollbackSize 97 := by
  have hacc : (fresh.act (.accept (.conn 5 true none) 0)).1.scrollback = Ring.new := rfl
  have hnew : Ring.new.contents = [] := Cyclic.window_zero _ _
  rw [ringFilled, Machine.run_cons]
  simp only
  rw [(run_outputs_unattached _ (by decide +kernel)).2, hacc, contents_foldl_append, hnew, List.nil_append,
    List.flatten_replicate_replicate, Cyclic.rtake_of_length_le _ _ (by rw [List.length_replicate]; decide)]
  rfl

theorem ringFilled_len : (run act fresh ringFilled).1.scrollback.len = scrollbackSize := by
  rw [← Ring.length_contents, ringFilled_contents, List.length_replicate]

theorem overrun_replays {d : SessionDaemon} (hn : (d.clients.map (·.fd)).Nodup) {i : Nat} {c : Client}
    (hi : d.clients[i]? = some c) (hc : c.attached = false) (hlen : d.scrollback.len = scrollbackSize) (b : Byte)
    {p : PacketAns} {pkt : Packet} (hp : p.Brings .attach pkt) (hpkt : pkt.len = 0) (hw : p.writes = [.fail .eagain]) :
    replayedTo c.fd ((d.act (.packet i p)).2 ++
      (run act (d.act (.packet i p)).1 [.output [b] 0 [], .drain [c.fd] (fun _ => [.room 1])]).2) = [b] := by
  have hpos : 0 < d.scrollback.len := by rw [hlen]; exact scrollbackSize_pos
  have hat : Client.atOnce d.scrollback pkt = false := by simp [Client.atOnce, hpkt, Nat.ne_of_gt hpos]
  have hfirst : Client.firstDrain d.scrollback p.writes = ⟨⟨d.scrollback.head, d.scrollback.len⟩, true, [], []⟩ := by
    rw [Client.firstDrain, hw, ReplayState.drain, if_pos hpos]
    rfl
  have hclient : clientsAt (d.act (.packet i p)).1.clients c.fd =
      [{ c with replayHead := d.scrollback.head, replayRemaining := d.scrollback.len }] := by
    rw [(attach_replays hn hi hp hat).1, hfirst]
    simp [Client.drained, hc, Nat.ne_of_gt hpos]
  have hsb : (d.act (.packet i p)).1.scrollback = d.scrollback := act_scrollback d _
  have hnone : replayedTo c.fd (d.act (.packet i p)).2 = [] := by
    rw [packet_replayed d p hi, if_pos rfl, Client.replayOn_attach hp, hat, hfirst]
    rfl
  generalize d.act (.packet i p) = o at hclient hsb hnone
  have hclient' : clientsAt (o.1.act (.output [b] 0 [])).1.clients c.fd =
      [{ c with replayHead := d.scrollback.head, replayRemaining := d.scrollback.len }] := by
    rcases output_client 0 [] (List.cons_ne_nil b []) hclient with ⟨h, -⟩ | ⟨-, h, -⟩
    · exact h
    · rw [hc] at h; cases h
  have hsb' : (o.1.act (.output [b] 0 [])).1.scrollback = d.scrollback.append [b] := by
    rw [act_scrollback, hsb]
  rw [replayedTo_append, hnone, List.nil_append, Machine.run_cons, replayedTo_append, output_replayed, List.nil_append,
    Machine.run_singleton, drain_replayed, hclient', hsb', List.flatMap_cons, List.flatMap_nil, List.append_nil,
    drainClient, if_pos ⟨hpos, List.mem_singleton_self _⟩]
  simpa [Effect.replayOf] using drain_of_full d.scrollback hlen b

/-- Nothing could be replayed at once; one more byte is read, and it is the first byte replayed. -/
theorem replay_overrun : ¬ ∀ (as : List Act) (i : Nat) (c : Client) (p : PacketAns) (pkt : Packet),
    Along act Possible fresh as → (run act fresh as).1.clients[i]? = some c → p.Brings .attach pkt → pkt.len = 0 →
    ∀ as', Along act Possible ((run act fresh as).1.act (.packet i p)).1 as' →
      Along act (NoAttach c.fd) ((run act fresh as).1.act (.packet i p)).1 as' →
      (replayedTo c.fd (((run act fresh as).1.act (.packet i p)).2 ++
        (run act ((run act fresh as).1.act (.packet i p)).1 as').2)).take (run act fresh as).1.scrollback.len <+:
        (run act fresh as).1.scrollback.contents := by
  intro h
  have hprefix := h ringFilled 0 ⟨5, false, 0, 0, 0⟩ _ _ ringFilled_possible (by rw [ringFilled_clients]; rfl)
    (PacketAns.whole_brings .attach 0 [.fail .eagain]) rfl [.output [98] 0 [], .drain [5] (fun _ => [.room 1])]
    ⟨by decide, trivial, trivial⟩ ⟨trivial, trivial, trivial⟩
  rw [overrun_replays (nodup_of_possible ringFilled_possible) (c := ⟨5, false, 0, 0, 0⟩) (by rw [ringFilled_clients]; rfl)
    rfl ringFilled_len 98 (PacketAns.whole_brings .attach 0 [.fail .eagain]) rfl rfl, ringFilled_contents,
    ringFilled_len] at hprefix
  have hhead : [(98 : Byte)].take scrollbackSize = [98] := List.take_of_length_le scrollbackSize_pos
  rw [hhead, show scrollbackSize = 131071 + 1 from rfl, List.replicate_succ, List.cons_prefix_cons] at hprefix
  exact absurd hprefix.1 (by decide)

/-! ## From the replay to the live stream -/

def NoPacket (f : RawFd) (d : SessionDaemon) : Act → Prop
  | .packet i p => ∀ c, d.clients[i]? = some c → c.fd = f → ∀ pkt, p.res ≠ .ok pkt
  | _ => True

/-- The client on a descriptor accepts every chunk in full. -/
def AcceptsAt (f : RawFd) (d : SessionDaemon) : Act → Prop
  | .output data took rounds => d.Comes (.output data took rounds) ∧ Accepting f data rounds
  | _ => True

def NotWhilePending (f : RawFd) (d : SessionDaemon) : Act → Prop
  | .output _ _ _ => ∀ c ∈ d.clients, c.fd = f → c.replayRemaining = 0
  | _ => True

def Present (f : RawFd) (d : SessionDaemon) : Prop := f ∈ d.clients.map (·.fd)

instance (f : RawFd) (d : SessionDaemon) (a : Act) : Decidable (NotWhilePending f d a) :=
  match a with
  | .output _ _ _ => inferInstanceAs (Decidable (∀ c ∈ d.clients, c.fd = f → c.replayRemaining = 0))
  | .poll | .accept _ _ | .packet _ _ | .evict | .drain _ _ => isTrue trivial

instance (f : RawFd) (d : SessionDaemon) : Decidable (Present f d) :=
  inferInstanceAs (Decidable (f ∈ d.clients.map (·.fd)))

theorem output_accepting {d : SessionDaemon} {data : List Byte} {took : Nat} {rounds : List Round} {f : RawFd} {c : Client}
    (ha : c.attached = true) (h : clientsAt d.clients f = [c]) (hacc : AcceptsAt f d (.output data took rounds)) :
    clientsAt (d.act (.output data took rounds)).1.clients f = [c] ∧
      liveTo f (d.act (.output data took rounds)).2 = data := by
  obtain ⟨hcomes, htakes⟩ := hacc
  have hsend : d.sendToClients data rounds = sendLoop d.listenerFd data rounds d.clients :=
    if_neg (fun hnil => absurd ha (List.filter_eq_nil_iff.1 hnil c (fd_of_clientsAt h).1))
  have hret := hcomes.2
  rw [hsend] at hret
  rw [output_clients, output_live, hsend]
  exact sendLoop_accepting d.listenerFd ha rounds d.clients hcomes.1 htakes h hret

/-- **What a client has got and what is pending for it** make up the scrollback its Attach found and the chunks read since;
with nothing pending it is attached. -/
def CaughtUp (f : RawFd) (S : List Byte) (d : SessionDaemon) (fx : List Effect) (chunks : List (List Byte)) : Prop :=
  ∃ c, clientsAt d.clients f = [c] ∧ (c.replayRemaining = 0 → c.attached = true) ∧
    outTo f fx ++ d.pending c = S ++ chunks.flatten

theorem caughtUp_step {f : RawFd} {S : List Byte} {d : SessionDaemon} {fx : List Effect} {chunks : List (List Byte)}
    (hcur : ∀ c ∈ d.clients, c.replayHead < scrollbackSize) {a : Act} (hposs : d.Possible a) (hno : NoPacket f d a)
    (hacc : AcceptsAt f d a) (hcalm : NotWhilePending f d a) (hpres : Present f (d.act a).1)
    (hC : CaughtUp f S d fx chunks) :
    CaughtUp f S (d.act a).1 (fx ++ (d.act a).2) (chunks ++ a.chunk.toList) := by
  obtain ⟨c, hc, hatt, hout⟩ := hC
  obtain ⟨hmem, rfl⟩ := fd_of_clientsAt hc
  have hgone : clientsAt (d.act a).1.clients c.fd ≠ [] := fun hnil => not_mem_fds_of_clientsAt hnil hpres
  unfold CaughtUp
  rw [outTo_append, act_out]
  unfold pending at hout ⊢
  rcases a.chunk_cases with hch | ⟨data, took, rounds, rfl⟩
  · have hstep := act_client hc hposs
    rw [scrollback_of_not_output d hch, hch, Option.toList_none, List.append_nil]
    generalize clientsAt (d.act a).1.clients c.fd = after, replayedTo c.fd (d.act a).2 = rep,
      liveTo c.fd (d.act a).2 = lv at hstep hgone ⊢
    cases hstep with
    | apart => exact ⟨c, rfl, hatt, by simpa using hout⟩
    | @packet i p hi =>
      cases hr : p.res with
      | ok pkt => exact absurd hr (hno c hi rfl pkt)
      | error e =>
        rw [Client.replayOn_of_error hr]
        cases hn : c.next d.scrollback p with
        | none => rw [hn] at hgone; exact absurd rfl hgone
        | some c' =>
          obtain rfl := Client.next_of_error hr hn
          exact ⟨c', rfl, hatt, by simpa using hout⟩
    | evicted => exact absurd rfl hgone
    | drained wfds ans =>
      obtain ⟨hsent, hdone⟩ := drainClient_spec d.scrollback wfds ans (hcur c hmem)
      exact ⟨_, rfl, hdone hatt, by simpa [hsent] using hout⟩
    | passed | taken | cut => cases hch
  · -- nothing is pending, so the chunk goes to the client
    have hzero := hcalm c hmem rfl
    obtain ⟨hcl, hlive⟩ := output_accepting (hatt hzero) hc hacc
    rw [hzero, Cyclic.window_zero, List.append_nil] at hout
    refine ⟨c, hcl, hatt, ?_⟩
    rw [output_replayed, hlive, hzero, Cyclic.window_zero, hout]
    simp [Act.chunk]

theorem caughtUp_run {f : RawFd} {S : List Byte} : ∀ {as : List Act} {d : SessionDaemon} {tr fx : List Effect}
    {chunks : List (List Byte)}, Reachable d tr → CaughtUp f S d fx chunks → Along act Possible d as →
    Along act (NoPacket f) d as → Along act (AcceptsAt f) d as → Along act (NotWhilePending f) d as →
    Along act (fun d a => Present f (d.act a).1) d as →
    CaughtUp f S (run act d as).1 (fx ++ (run act d as).2) (chunks ++ chunksOf as)
  | [], _, _, _, _, _, hC, _, _, _, _, _ => by
    simpa [chunksOf] using hC
  | a :: as, d, tr, fx, chunks, hd, hC, hposs, hno, hacc, hcalm, hpres => by
    have hstep := caughtUp_step hd.cursor_lt hposs.1 hno.1 hacc.1 hcalm.1 hpres.1 hC
    have := caughtUp_run (hd.step a hposs.1) hstep hposs.2 hno.2 hacc.2 hcalm.2 hpres.2
    have hchunks : chunksOf (a :: as) = a.chunk.toList ++ chunksOf as := by
      rw [chunksOf, List.filterMap_cons]
      cases a.chunk <;> rfl
    rw [Machine.run_cons, hchunks, ← List.append_assoc, ← List.append_assoc]
    exact this

def fiveTakes : List Round := [⟨.ready [] [5], fun _ => .room 100⟩]

theorem fiveTakes_interrupted : Interrupted fiveTakes := fun r hr e he => by
  rw [List.mem_singleton.1 hr] at he
  cases he

theorem fiveTakes_accepting {data : List Byte} (h : data.length ≤ 100) : Accepting 5 data fiveTakes := fun r hr => by
  obtain rfl := List.mem_singleton.1 hr
  refine ⟨fun rd w he => ?_, 100, rfl, h⟩
  obtain ⟨-, rfl⟩ := SelectRet.ready.inj he
  exact List.mem_singleton_self 5

def fiveAttaches : SessionDaemon × List Effect :=
  (run act fresh threeRead).1.act (.packet 0 (.whole (Packet.new .attach) [.room 1]))

def drainThenChunk : List Act := [.drain [5] (fun _ => [.room 10]), .output [5] 0 fiveTakes]

/-- A chunk, the rest of the replay, and another chunk. -/
def chunkInBetween : List Act := .output [4] 0 [] :: drainThenChunk

end SessionDaemon

end Zatch
