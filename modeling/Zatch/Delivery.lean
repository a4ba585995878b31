import Zatch.ClientSteps
/-!
# Delivery — which chunks an attached client gets

`send_to_clients` waits until one attached client has taken the chunk, not all of them: those that are not ready in any of
its rounds may be left without it (`PassedOver`).  What a client gets over a run is the concatenation of some of the chunks
read (`live_of_connected`): a chunk of which only a part was written costs the client its connection (`WholeOrGone`).
-/
namespace Zatch

open Machine (run Along)

namespace SessionDaemon

/-- The chunks a run reads from the PTY, in order. -/
def chunksOf (as : List Act) : List (List Byte) := as.filterMap Act.chunk

def AttachedAt (d : SessionDaemon) (f : RawFd) : Prop := ∃ c, clientsAt d.clients f = [c] ∧ c.attached = true

/-- In no round of the loop was the client ready, and another attached client has taken the chunk, or a connection was
waiting. -/
def PassedOver (d : SessionDaemon) (data : List Byte) (rounds : List Round) (f : RawFd) : Prop :=
  Unready f (roundsRun d.listenerFd data rounds d.clients) ∧
    ((∃ c' ∈ (d.sendToClients data rounds).clients, c'.fd ≠ f ∧ c'.attached = true ∧
      liveTo c'.fd (d.sendToClients data rounds).fx = data) ∨
      Waiting d.listenerFd (roundsRun d.listenerFd data rounds d.clients))

/-- The whole chunk was sent to the client, or it was closed and removed, or it was passed over. -/
def Served (d : SessionDaemon) (data : List Byte) (rounds : List Round) (c : Client) : Prop :=
  (c ∈ (d.sendToClients data rounds).clients ∧ liveTo c.fd (d.sendToClients data rounds).fx = data) ∨
  (c.fd ∉ (d.sendToClients data rounds).clients.map (·.fd) ∧ .closed c.fd ∈ (d.sendToClients data rounds).fx) ∨
  (c ∈ (d.sendToClients data rounds).clients ∧ liveTo c.fd (d.sendToClients data rounds).fx = [] ∧
    PassedOver d data rounds c.fd)

/-- `send_to_clients` comes back, `select` failing at most with `EINTR`. -/
def Comes (d : SessionDaemon) : Act → Prop
  | .output data _ rounds => Interrupted rounds ∧ (d.sendToClients data rounds).returned = true
  | _ => True

theorem sendToClients_served {d : SessionDaemon} (hn : (d.clients.map (·.fd)).Nodup) {data : List Byte} (hdata : data ≠ [])
    {rounds : List Round} (hint : Interrupted rounds) (hret : (d.sendToClients data rounds).returned = true) {c : Client}
    (hc : c ∈ d.clients) (ha : c.attached = true) : Served d data rounds c := by
  have h := clientsAt_of_nodup hn hc
  have hsend : d.sendToClients data rounds = sendLoop d.listenerFd data rounds d.clients :=
    if_neg (fun hnil => absurd ha (List.filter_eq_nil_iff.1 hnil c hc))
  unfold Served PassedOver
  rw [hsend] at hret ⊢
  rcases sendLoop_client d.listenerFd hdata c.fd c rounds d.clients h with ⟨hin, hnone | ⟨-, hall⟩⟩ | ⟨hout, -, hcl, -⟩
  · exact .inr (.inr ⟨(fd_of_clientsAt hin).1, hnone,
      sendLoop_unready d.listenerFd hdata c.fd c ha rounds d.clients hint h hin hnone,
      sendLoop_excuse d.listenerFd hdata c.fd c ha rounds d.clients hint hn h hret hin hnone⟩)
  · exact .inl ⟨(fd_of_clientsAt hin).1, hall⟩
  · exact .inr (.inl ⟨not_mem_fds_of_clientsAt hout, hcl⟩)

theorem live_of_not_attached {d : SessionDaemon} (hn : (d.clients.map (·.fd)).Nodup) {a : Act} (hposs : d.Possible a)
    {f : RawFd} (h : ∀ c ∈ d.clients, c.fd = f → c.attached = false) : liveTo f (d.act a).2 = [] := by
  rcases clientsAt_cases hn f with hnil | ⟨c, hc⟩
  · exact (act_absent hnil a).2.1
  · obtain ⟨hmem, rfl⟩ := fd_of_clientsAt hc
    have hstep := act_client hc hposs
    have hno := h c hmem rfl
    generalize clientsAt (d.act a).1.clients c.fd = after, replayedTo c.fd (d.act a).2 = rep,
      liveTo c.fd (d.act a).2 = lv at hstep ⊢
    cases hstep with
    | taken ha => rw [ha] at hno; cases hno
    | cut ha => rw [ha] at hno; cases hno
    | _ => rfl

theorem output_attached {d : SessionDaemon} (hn : (d.clients.map (·.fd)).Nodup) {data : List Byte} (hdata : data ≠ [])
    {took : Nat} {rounds : List Round} (hcomes : d.Comes (.output data took rounds)) {f : RawFd} (hb : d.AttachedAt f)
    (ha : (d.act (.output data took rounds)).1.AttachedAt f) :
    liveTo f (d.act (.output data took rounds)).2 = data ∨
      liveTo f (d.act (.output data took rounds)).2 = [] ∧ PassedOver d data rounds f := by
  obtain ⟨c, hc, hatt⟩ := hb
  obtain ⟨hmem, rfl⟩ := fd_of_clientsAt hc
  rw [output_live]
  rcases sendToClients_served hn hdata hcomes.1 hcomes.2 hmem hatt with ⟨-, hall⟩ | ⟨hout, -⟩ | ⟨-, hnone, hp⟩
  · exact .inl hall
  · obtain ⟨c', hc', -⟩ := ha
    rw [output_clients] at hc'
    exact absurd (List.mem_map.2 ⟨c', fd_of_clientsAt hc'⟩) hout
  · exact .inr ⟨hnone, hp⟩

/-! ## Whole or not at all -/

/-- What `send_to_clients` makes of one client: it stays, with the whole chunk or none of it; or a part of the chunk was
sent, and it is closed and removed. -/
def WholeOrGone (d : SessionDaemon) (data : List Byte) (rounds : List Round) (c : Client) : Prop :=
  (c ∈ (d.sendToClients data rounds).clients ∧
    (liveTo c.fd (d.sendToClients data rounds).fx = [] ∨ liveTo c.fd (d.sendToClients data rounds).fx = data)) ∨
  (c.fd ∉ (d.sendToClients data rounds).clients.map (·.fd) ∧ .closed c.fd ∈ (d.sendToClients data rounds).fx ∧
    ∃ n, n < data.length ∧ liveTo c.fd (d.sendToClients data rounds).fx = data.take n)

theorem sendToClients_whole_or_gone {d : SessionDaemon} (hn : (d.clients.map (·.fd)).Nodup) {data : List Byte}
    (hdata : data ≠ []) (rounds : List Round) {c : Client} (hc : c ∈ d.clients) : WholeOrGone d data rounds c := by
  unfold WholeOrGone sendToClients
  split
  · exact .inl ⟨hc, .inl rfl⟩
  · rcases sendLoop_client d.listenerFd hdata c.fd c rounds d.clients (clientsAt_of_nodup hn hc) with
      ⟨hin, hlive⟩ | ⟨hout, -, hcl, hlive⟩
    · exact .inl ⟨(fd_of_clientsAt hin).1, hlive.imp_right And.right⟩
    · exact .inr ⟨not_mem_fds_of_clientsAt hout, hcl, hlive⟩

/-- **What a client that stays connected gets over a run**: some of the chunks, each whole, in order. -/
theorem live_of_connected {f : RawFd} : ∀ {as : List Act} {d : SessionDaemon}, (d.clients.map (·.fd)).Nodup →
    Along act Possible d as → Along act (fun d _ => f ∈ d.clients.map (·.fd)) d as →
    f ∈ (run act d as).1.clients.map (·.fd) →
    ∃ got : List (List Byte), got.Sublist (chunksOf as) ∧ liveTo f (run act d as).2 = got.flatten
  | [], _, _, _, _, _ => ⟨[], List.Sublist.refl _, rfl⟩
  | a :: as, d, hn, hposs, hin, hend => by
    have hend' : f ∈ (run act (d.act a).1 as).1.clients.map (·.fd) := hend
    obtain ⟨got, hsub, hlive⟩ := live_of_connected (act_nodup hn hposs.1) hposs.2 hin.2 hend'
    have hafter : f ∈ (d.act a).1.clients.map (·.fd) := by
      cases as with
      | nil => exact hend
      | cons b bs => exact hin.2.1
    rw [Machine.run_cons, liveTo_append, hlive]
    rcases a.chunk_cases with hno | ⟨data, took, rounds, rfl⟩
    · rw [live_of_not_output d hno, List.nil_append, chunksOf, List.filterMap_cons_none hno]
      exact ⟨got, hsub, rfl⟩
    · obtain ⟨c, hc, rfl⟩ := List.mem_map.1 hin.1
      rw [output_clients] at hafter
      rw [output_live]
      rcases sendToClients_whole_or_gone hn hposs.1 rounds hc with ⟨-, hnone | hall⟩ | ⟨hout, -⟩
      · exact ⟨got, hsub.cons data, by rw [hnone, List.nil_append]⟩
      · exact ⟨data :: got, hsub.cons_cons data, by rw [hall, List.flatten_cons]⟩
      · exact absurd hafter hout

/-! ## Passed over -/

theorem fd_of_attachedAt {d : SessionDaemon} {f : RawFd} (h : d.AttachedAt f) : f ∈ d.clients.map (·.fd) := by
  obtain ⟨c, hc, -⟩ := h
  exact List.mem_map.2 ⟨c, fd_of_clientsAt hc⟩

/-- **Why a client that stays attached misses a chunk**: it was passed over. -/
theorem missed_passed_over {f : RawFd} : ∀ {as : List Act} {d : SessionDaemon}, (d.clients.map (·.fd)).Nodup →
    Along act Possible d as → Along act Comes d as → Along act (fun d _ => d.AttachedAt f) d as →
    (run act d as).1.AttachedAt f →
    Along act (fun d a => ∀ data took rounds, a = .output data took rounds →
      liveTo f (d.act a).2 = data ∨ liveTo f (d.act a).2 = [] ∧ PassedOver d data rounds f) d as
  | [], _, _, _, _, _, _ => trivial
  | a :: as, d, hn, hposs, hcomes, hatt, hend => by
    have hend' : (run act (d.act a).1 as).1.AttachedAt f := hend
    have hafter : (d.act a).1.AttachedAt f := by
      cases as with
      | nil => exact hend
      | cons b bs => exact hatt.2.1
    refine ⟨?_, missed_passed_over (act_nodup hn hposs.1) hposs.2 hcomes.2 hatt.2 hend'⟩
    rintro data took rounds rfl
    exact output_attached hn hposs.1 hcomes.1 hatt.1 hafter

/-- **`send_to_clients`, in every reachable state and over every run from it**: when it comes back, a client that was
attached has the whole chunk, or is closed and removed, or was passed over, and then not ready in any round; and what a
client that stays attached gets over a run is made of whole chunks, in order, each missing one passed over. -/
theorem sendToClients_whole_closed_or_passed {d : SessionDaemon} {fx : List Effect} (hd : Reachable d fx) :
    (∀ data rounds, data ≠ [] → Interrupted rounds → (d.sendToClients data rounds).returned = true →
      ∀ c ∈ d.clients, c.attached = true → Served d data rounds c) ∧
    ∀ f as, Along act Possible d as → Along act Comes d as → Along act (fun d _ => d.AttachedAt f) d as →
      (run act d as).1.AttachedAt f →
      (∃ got : List (List Byte), got.Sublist (chunksOf as) ∧ liveTo f (run act d as).2 = got.flatten) ∧
      Along act (fun d a => ∀ data took rounds, a = .output data took rounds →
        liveTo f (d.act a).2 = data ∨ liveTo f (d.act a).2 = [] ∧ PassedOver d data rounds f) d as :=
  ⟨fun _ _ hdata hint hret _ hc ha => sendToClients_served hd.nodup hdata hint hret hc ha,
    fun _ _ hposs hcomes hatt hend =>
      ⟨live_of_connected hd.nodup hposs (hatt.mono (fun _ _ h => fd_of_attachedAt h)) (fd_of_attachedAt hend),
        missed_passed_over hd.nodup hposs hcomes hatt hend⟩⟩

/-- **A chunk is sent to a client whole or not at all, in every reachable state and over every run from it**: whatever
`select` and the writes answer, a client that is left in `clients` got the whole chunk or nothing, one that got a part is
closed and removed, and none got a byte twice; so what a client that stays connected gets over a run is made of whole
chunks, in order. -/
theorem live_chunks_whole {d : SessionDaemon} {tr : List Effect} (hd : Reachable d tr) :
    (∀ data rounds, data ≠ [] → ∀ c ∈ d.clients, WholeOrGone d data rounds c) ∧
    ∀ f as, Along act Possible d as → Along act (fun d _ => f ∈ d.clients.map (·.fd)) d as →
      f ∈ (run act d as).1.clients.map (·.fd) →
      ∃ got : List (List Byte), got.Sublist (chunksOf as) ∧ liveTo f (run act d as).2 = got.flatten :=
  ⟨fun _ rounds hdata _ hc => sendToClients_whole_or_gone hd.nodup hdata rounds hc,
    fun _ _ hposs hin hend => live_of_connected hd.nodup hposs hin hend⟩

/-- A new session's daemon, listening on 3, its PTY on 4. -/
def fresh : SessionDaemon := new 3 ⟨4, 100⟩ none "s" "zatch"

theorem fresh_reachable : Reachable fresh [] := .new none "s" "zatch" (by decide)

def bothAttach : List Act :=
  [.accept (.conn 5 true none) 0, .accept (.conn 6 true none) 0,
    .packet 0 (.whole (Packet.new .attach) []), .packet 1 (.whole (Packet.new .attach) [])]

theorem bothAttach_clients :
    (run act fresh bothAttach).1.clients = [⟨5, true, 0, 0, 0⟩, ⟨6, true, 0, 0, 0⟩] := by decide +kernel

theorem bothAttach_possible : Along act Possible fresh bothAttach := by decide +kernel

theorem bothAttach_reachable : Reachable (run act fresh bothAttach).1 (run act fresh bothAttach).2 :=
  fresh_reachable.of_run bothAttach_possible

def oneWritable : List Round := [⟨.ready [] [5], fun _ => .room 100⟩]

theorem oneWritable_interrupted : Interrupted oneWritable := fun r hr e he => by
  rw [List.mem_singleton.1 hr] at he
  cases he

theorem slow_client_whole_or_gone : WholeOrGone (run act fresh bothAttach).1 [7, 8] [⟨.ready [] [5, 6], fun _ => .room 1⟩]
    ⟨6, true, 0, 0, 0⟩ :=
  (live_chunks_whole bothAttach_reachable).1 [7, 8] _ (by decide) _ (by rw [bothAttach_clients]; decide)

theorem slow_client_served : Served (run act fresh bothAttach).1 [7] oneWritable ⟨6, true, 0, 0, 0⟩ :=
  (sendToClients_whole_closed_or_passed bothAttach_reachable).1 [7] oneWritable (by decide) oneWritable_interrupted
    (by decide +kernel) _ (by rw [bothAttach_clients]; decide) rfl

/-- The client that is not writable keeps its place and misses the chunk. -/
theorem sendToClients_skips_slow_client :
    ¬ ∀ (d : SessionDaemon) (fx : List Effect), Reachable d fx → ∀ (data : List Byte) (rounds : List Round), data ≠ [] →
      Interrupted rounds → (d.sendToClients data rounds).returned = true → ∀ c ∈ d.clients, c.attached = true →
        liveTo c.fd (d.sendToClients data rounds).fx = data ∨
        (c.fd ∉ (d.sendToClients data rounds).clients.map (·.fd) ∧ .closed c.fd ∈ (d.sendToClients data rounds).fx) := by
  intro h
  have hout : ((run act fresh bothAttach).1.sendToClients [7] oneWritable) =
      ⟨[⟨5, true, 0, 0, 0⟩, ⟨6, true, 0, 0, 0⟩], [.live 5 [7]], true⟩ := by
    decide +kernel
  have := h _ _ bothAttach_reachable [7] oneWritable (by decide) oneWritable_interrupted (by rw [hout]) ⟨6, true, 0, 0, 0⟩
    (by rw [bothAttach_clients]; decide) rfl
  rw [hout] at this
  revert this
  decide

end SessionDaemon

end Zatch
