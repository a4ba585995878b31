import Zatch.Descriptors
import Zatch.Evict
import Mathlib.Data.List.Infix
/-!
# FdSetSize — the descriptors put in an `fd_set` and tested in one

An `fd_set` has room for `fdSetSize` descriptors, and `FD_SET` and `FD_ISSET` index it with the descriptor.  The
descriptors a turn puts in a set or tests are the listener's, the PTY's, the clients' and the one of the connection it
accepts (`mem_turnTests`); nothing keeps the last below `fdSetSize`.
-/
namespace Zatch

open Machine (run Along)

/-- `FD_SETSIZE`. -/
def fdSetSize : Nat := 1024

namespace SessionDaemon

/-- The descriptors `handle_client_packets` tests, one in each round. -/
def packetTests (rfds : FdSet) (ans : RawFd → PacketAns) : Nat → Nat → SessionDaemon → List RawFd
  | 0, _, _ => []
  | fuel + 1, i, d =>
    match d.clients[i]? with
    | none => []
    | some c =>
      c.fd :: (if c.fd ∈ rfds then
        let h := d.visit i c.fd (ans c.fd)
        packetTests rfds ans fuel (if h.keep then i + 1 else i) h.d
      else packetTests rfds ans fuel (i + 1) d)

/-- The descriptors `send_to_clients` puts in its sets: at each `select` it comes to.  It tests the same ones. -/
def sendTests (d : SessionDaemon) (data : List Byte) (rounds : List Round) : List RawFd :=
  if d.clients.filter (·.attached) = [] then []
  else (rounds.inits.filter (fun pre => !(sendLoop d.listenerFd data pre d.clients).returned)).flatMap
    (fun pre => innerSet d.listenerFd (sendLoop d.listenerFd data pre d.clients).clients)

def outputTests (d : SessionDaemon) (rfds : FdSet) (k : TurnAns) : List RawFd :=
  d.pty.fd :: match k.ptyRead with
    | .ok (b :: bs) => if d.pty.fd ∈ rfds then d.sendTests ((b :: bs).take bufsize) k.rounds else []
    | _ => []

/-- Every descriptor a turn gives to `FD_SET` or `FD_ISSET`, in order. -/
def turnTests (d : SessionDaemon) (k : TurnAns) : List RawFd :=
  d.readSet ++ d.writeSet ++ match fdSelect d.readSet d.writeSet k.sel with
    | .error _ => []
    | .ok (rfds, wfds) =>
      let b := d.buildFdSets
      let a := if d.listenerFd ∈ rfds then b.1.acceptClient k.accept k.took else (b.1, [])
      let p := a.1.handleClientPackets rfds k.packets
      let e := p.1.evict
      let r := e.1.drainReplay wfds k.drains
      d.listenerFd :: packetTests rfds k.packets a.1.clients.length 0 a.1 ++ e.1.writeSet ++ r.1.outputTests rfds k

/-- The turns as a machine that puts out the descriptors. -/
def fdTurn (d : SessionDaemon) (k : TurnAns) : SessionDaemon × List RawFd := ((d.turn k).d, d.turnTests k)

/-- The descriptor of the connection a turn accepts and keeps. -/
def admits (d : SessionDaemon) (k : TurnAns) : Option RawFd :=
  match fdSelect d.readSet d.writeSet k.sel, k.accept with
  | .ok (rfds, _), .conn fd true _ => if d.listenerFd ∈ rfds then some fd else none
  | _, _ => none

def fds (d : SessionDaemon) : List RawFd := d.clients.map (·.fd)

/-! ## What the parts of a turn test -/

theorem packetTests_perm (rfds : FdSet) (ans : RawFd → PacketAns) : ∀ (fuel : Nat) (done todo : List Client)
    (d : SessionDaemon), d.clients = done ++ todo → todo.length ≤ fuel →
    (packetTests rfds ans fuel done.length d).Perm (todo.map (·.fd))
  | fuel, done, [], d, hcl, _ => by
    have hend : d.clients[done.length]? = none := by rw [hcl, List.append_nil]; simp
    cases fuel with
    | zero => exact List.Perm.refl _
    | succ fuel =>
      rw [packetTests, hend]
      exact List.Perm.refl _
  | 0, _, _ :: _, _, _, hf => absurd hf (by simp)
  | fuel + 1, done, x :: rest, d, hcl, hf => by
    have hx : d.clients[done.length]? = some x := by rw [hcl]; simp
    rw [List.length_cons] at hf
    rw [packetTests, hx, List.map_cons]
    apply List.Perm.cons
    split
    · rcases visit_todo d (ans x.fd) hcl with ⟨x', -, hkeep, hset⟩ | ⟨-, hkeep, rest', hperm, hswap⟩
      · have ih := packetTests_perm rfds ans fuel (done ++ [x']) rest _ hset (by omega)
        rw [List.length_append, List.length_singleton] at ih
        simp only [hkeep, if_true]
        exact ih
      · have ih := packetTests_perm rfds ans fuel done rest' _ hswap (by rw [hperm.length_eq]; omega)
        simp only [hkeep, Bool.false_eq_true, if_false]
        exact ih.trans (hperm.map _)
    · have ih := packetTests_perm rfds ans fuel (done ++ [x]) rest d (by rw [hcl, List.append_assoc]; rfl) (by omega)
      rwa [List.length_append, List.length_singleton] at ih

theorem packets_fds (d : SessionDaemon) (rfds : FdSet) (ans : RawFd → PacketAns) :
    (d.handleClientPackets rfds ans).1.fds ⊆ d.fds := by
  intro f hf
  obtain ⟨c', hc', rfl⟩ := List.mem_map.1 hf
  obtain ⟨c, hc, hafter⟩ := List.mem_filterMap.1 ((handleClientPackets_spec d rfds ans).clients.mem_iff.1 hc')
  exact List.mem_map.2 ⟨c, hc, (afterBatch_fd hafter).symm⟩

theorem evict_fds (d : SessionDaemon) : d.evict.1.fds ⊆ d.fds := by
  unfold evict
  split
  · exact List.map_subset _ (List.filter_subset_self _)
  · exact List.Subset.refl _

theorem drain_fds (d : SessionDaemon) (wfds : FdSet) (ans : RawFd → List WriteRet) :
    (d.drainReplay wfds ans).1.fds = d.fds := by
  simp only [fds, drainReplay, List.map_map, Function.comp_def, drainClient_fd]

theorem innerSet_subset {l : RawFd} {cs cs' : List Client} (h : cs ⊆ cs') : innerSet l cs ⊆ l :: cs'.map (·.fd) :=
  List.cons_subset_cons l (List.map_subset _ (fun _ hc => h (List.mem_filter.1 hc).1))

theorem sendTests_subset (d : SessionDaemon) (data : List Byte) (rounds : List Round) :
    d.sendTests data rounds ⊆ d.listenerFd :: d.fds := by
  unfold sendTests
  split
  · exact List.nil_subset _
  · intro f hf
    obtain ⟨pre, -, hpre⟩ := List.mem_flatMap.1 hf
    exact innerSet_subset (sendLoop_sublist d.listenerFd data pre d.clients).subset hpre

theorem outputTests_subset (d : SessionDaemon) (rfds : FdSet) (k : TurnAns) :
    d.outputTests rfds k ⊆ d.pty.fd :: d.listenerFd :: d.fds := by
  unfold outputTests
  apply List.cons_subset_cons
  split
  · split
    · exact sendTests_subset d _ _
    · exact List.nil_subset _
  · exact List.nil_subset _

theorem output_fds (d : SessionDaemon) (rfds : FdSet) (k : TurnAns) : (d.handlePtyOutput rfds k).d.fds ⊆ d.fds := by
  have hup : (d.hangup k).d.fds = d.fds := by
    simp only [hangup, cleanup, fds, logData]
    split <;> rfl
  unfold handlePtyOutput
  split
  · split
    · rw [hup]
      exact List.Subset.refl _
    · rename_i b bs _
      show ((d.forward ((b :: bs).take bufsize) k.took k.rounds).1.clients.map (·.fd)) ⊆ _
      rw [(forward_sent d _ _ _).1]
      unfold sendToClients
      split
      · exact List.Subset.refl _
      · exact List.map_subset _ (sendLoop_sublist _ _ _ _).subset
    · rw [hup]
      exact List.Subset.refl _
    · exact List.Subset.refl _
  · exact List.Subset.refl _

/-! ## A turn, and a run of turns -/

theorem accept_fds (d : SessionDaemon) (k : TurnAns) {rfds wfds : FdSet}
    (hsel : fdSelect d.readSet d.writeSet k.sel = .ok (rfds, wfds)) :
    (if d.listenerFd ∈ rfds then d.buildFdSets.1.acceptClient k.accept k.took else (d.buildFdSets.1, [])).1.fds =
      d.fds ++ (d.admits k).toList := by
  rw [admits, hsel]
  rcases k.accept with ⟨fd, nb, cred⟩ | e
  · split
    · rw [fds, acceptClient_clients]
      cases nb <;> simp [fds, buildFdSets, *]
    · cases nb <;> simp [fds, buildFdSets, *]
  · split
    · rw [fds, acceptClient_clients]
      simp [fds, buildFdSets]
    · simp [fds, buildFdSets]

theorem accept_fixed (d : SessionDaemon) (k : TurnAns) (rfds : FdSet) :
    (if d.listenerFd ∈ rfds then d.buildFdSets.1.acceptClient k.accept k.took else (d.buildFdSets.1, [])).1.listenerFd =
      d.listenerFd ∧
    (if d.listenerFd ∈ rfds then d.buildFdSets.1.acceptClient k.accept k.took else (d.buildFdSets.1, [])).1.pty = d.pty := by
  split
  · exact act_fixed d.buildFdSets.1 (.accept k.accept k.took)
  · exact ⟨rfl, rfl⟩

theorem packets_fixed (d : SessionDaemon) (rfds : FdSet) (ans : RawFd → PacketAns) :
    (d.handleClientPackets rfds ans).1.listenerFd = d.listenerFd ∧ (d.handleClientPackets rfds ans).1.pty = d.pty := by
  obtain ⟨as, hpkts, hrun⟩ := packetLoop_eq_run rfds ans d.clients.length 0 d
  have hkeep : ∀ (d' : SessionDaemon) (a : Act), d'.listenerFd = d.listenerFd ∧ d'.pty = d.pty → True →
      (d'.act a).1.listenerFd = d.listenerFd ∧ (d'.act a).1.pty = d.pty := by
    intro d' a hd' _
    obtain ⟨hl, hp⟩ := act_fixed d' a
    exact ⟨hl.trans hd'.1, hp.trans hd'.2⟩
  have hall : Along act (fun _ _ => True) d as := (Machine.along_iff _ _ _).2 (fun _ _ _ _ => trivial)
  rw [handleClientPackets, hrun]
  exact Along.inv (I := fun d' => d'.listenerFd = d.listenerFd ∧ d'.pty = d.pty) hkeep ⟨rfl, rfl⟩ hall

/-- **The descriptors a turn puts in its sets and tests.** -/
theorem mem_turnTests (d : SessionDaemon) (k : TurnAns) (f : RawFd) :
    f ∈ d.turnTests k ↔ f = d.listenerFd ∨ f = d.pty.fd ∨ f ∈ d.fds ∨ d.admits k = some f := by
  have hread : f ∈ d.readSet ↔ f = d.listenerFd ∨ f = d.pty.fd ∨ f ∈ d.fds := by
    simp [readSet, fds]
  have hwrite : ∀ d' : SessionDaemon, d'.writeSet ⊆ d'.fds := fun d' =>
    List.map_subset _ (List.filter_subset_self _)
  unfold turnTests
  rw [List.mem_append, List.mem_append, hread]
  cases hsel : fdSelect d.readSet d.writeSet k.sel with
  | error e =>
    have hnone : d.admits k = none := by
      unfold admits
      rw [hsel]
    rw [hnone]
    constructor
    · rintro ((h | h) | h)
      · exact h.imp_right (Or.imp_right .inl)
      · exact .inr (.inr (.inl (hwrite d h)))
      · cases h
    · rintro (h | h | h | h)
      · exact .inl (.inl (.inl h))
      · exact .inl (.inl (.inr (.inl h)))
      · exact .inl (.inl (.inr (.inr h)))
      · cases h
  | ok s =>
    obtain ⟨rfds, wfds⟩ := s
    have hfds := accept_fds d k hsel
    obtain ⟨hal, hap⟩ := accept_fixed d k rfds
    simp only
    generalize (if d.listenerFd ∈ rfds then d.buildFdSets.1.acceptClient k.accept k.took else (d.buildFdSets.1, [])) = a
      at hfds hal hap ⊢
    obtain ⟨hpl, hpp⟩ := packets_fixed a.1 rfds k.packets
    obtain ⟨hel, hep⟩ := act_fixed (a.1.handleClientPackets rfds k.packets).1 .evict
    have hafds : f ∈ a.1.fds ↔ f ∈ d.fds ∨ d.admits k = some f := by
      rw [hfds, List.mem_append, Option.mem_toList]
    have htests : f ∈ packetTests rfds k.packets a.1.clients.length 0 a.1 ↔ f ∈ a.1.fds :=
      (packetTests_perm rfds k.packets _ [] a.1.clients a.1 rfl (Nat.le_refl _)).mem_iff
    have hevicted : (a.1.handleClientPackets rfds k.packets).1.evict.1.fds ⊆ a.1.fds :=
      List.Subset.trans (evict_fds _) (packets_fds a.1 rfds k.packets)
    rw [List.mem_append, List.mem_append, List.mem_cons, htests, hafds]
    constructor
    · rintro ((h | h) | ((h | h) | h) | h)
      · exact h.imp_right (Or.imp_right .inl)
      · exact .inr (.inr (.inl (hwrite d h)))
      · exact .inl h
      · exact .inr (.inr h)
      · exact .inr (.inr (hafds.1 (hevicted (hwrite _ h))))
      · have hout := outputTests_subset _ rfds k h
        rw [drain_fds] at hout
        rcases List.mem_cons.1 hout with hp | hout
        · exact .inr (.inl (hp.trans (congrArg Pty.fd (hep.trans (hpp.trans hap)))))
        · rcases List.mem_cons.1 hout with hl | hout
          · exact .inl (hl.trans (hel.trans (hpl.trans hal)))
          · exact .inr (.inr (hafds.1 (hevicted hout)))
    · rintro (h | h | h)
      · exact .inl (.inl (.inl h))
      · exact .inl (.inl (.inr (.inl h)))
      · exact .inr (.inl (.inl (.inr h)))

theorem turn_fds (d : SessionDaemon) (k : TurnAns) : (d.turn k).d.fds ⊆ d.fds ++ (d.admits k).toList := by
  have hup : ∀ d' : SessionDaemon, (d'.cleanup k.took).1.fds = d'.fds := fun d' => by
    simp only [cleanup, fds, logData]
    split <;> rfl
  unfold turn
  cases hsel : fdSelect d.readSet d.writeSet k.sel with
  | error e =>
    cases e with
    | eintr => exact List.subset_append_left _ _
    | _ =>
      simp only
      rw [hup]
      exact List.subset_append_left _ _
  | ok s =>
    obtain ⟨rfds, wfds⟩ := s
    have hfds := accept_fds d k hsel
    simp only
    rw [← hfds]
    apply List.Subset.trans (output_fds _ rfds k)
    rw [drain_fds]
    exact List.Subset.trans (evict_fds _) (packets_fds _ rfds k.packets)

/-- What it takes that a turn stays inside its sets: the listener's and the PTY's descriptor are below the size, and so is
that of the connection the turn accepts. -/
def InRange (d : SessionDaemon) (k : TurnAns) : Prop :=
  d.listenerFd < fdSetSize ∧ d.pty.fd < fdSetSize ∧ ∀ f, d.admits k = some f → f < fdSetSize

theorem turnTests_lt_iff {d : SessionDaemon} (hd : ∀ f ∈ d.fds, f < fdSetSize) (k : TurnAns) :
    (∀ f ∈ d.turnTests k, f < fdSetSize) ↔ d.InRange k := by
  simp only [mem_turnTests, InRange]
  constructor
  · intro h
    exact ⟨h _ (.inl rfl), h _ (.inr (.inl rfl)), fun f hf => h f (.inr (.inr (.inr hf)))⟩
  · rintro ⟨hl, hp, ha⟩ f (rfl | rfl | hf | hf)
    · exact hl
    · exact hp
    · exact hd f hf
    · exact ha f hf

theorem run_fdTurn_lt_iff : ∀ (ks : List TurnAns) {d : SessionDaemon}, (∀ f ∈ d.fds, f < fdSetSize) →
    ((∀ f ∈ (run fdTurn d ks).2, f < fdSetSize) ↔ Along fdTurn InRange d ks)
  | [], d, _ => by simp
  | k :: ks, d, hd => by
    rw [Machine.run_cons, Machine.along_cons, List.forall_mem_append, ← turnTests_lt_iff hd k]
    apply and_congr_right
    intro hk
    refine run_fdTurn_lt_iff ks (fun f hf => ?_)
    rcases List.mem_append.1 (turn_fds d k hf) with h | h
    · exact hd f h
    · exact ((turnTests_lt_iff hd k).1 hk).2.2 f (Option.mem_toList.1 h)

/-- **The descriptors of a run of the daemon fit in an `fd_set`** exactly when the listener's and the PTY's do, and in every
turn that of the connection it accepts. -/
theorem fd_sets_in_bounds_iff (l : RawFd) (p : Pty) (log : Option SessionLog) (s g : String) (ks : List TurnAns) :
    (∀ f ∈ (run fdTurn (new l p log s g) ks).2, f < fdSetSize) ↔ Along fdTurn InRange (new l p log s g) ks :=
  run_fdTurn_lt_iff ks (fun f hf => by cases hf)

/-! ## Connections that stay -/

/-- One more connection is made, and nothing else happens. -/
def connects (fd : RawFd) : TurnAns where
  sel := .ready [3] []
  accept := .conn fd true none
  packets := fun _ => ⟨[], [], [], .room 0, none⟩
  drains := fun _ => []
  ptyRead := .error .eagain
  rounds := []
  status := none
  took := 0

theorem packetLoop_idle {rfds : FdSet} (ans : RawFd → PacketAns) {d : SessionDaemon} (h : ∀ f ∈ d.fds, f ∉ rfds) :
    ∀ fuel i, packetLoop rfds ans fuel i d = (d, [])
  | 0, _ => rfl
  | fuel + 1, i => by
    unfold packetLoop
    split
    · rfl
    · rename_i c hc
      rw [if_neg (h c.fd (List.mem_map.2 ⟨c, List.mem_of_getElem? hc, rfl⟩))]
      exact packetLoop_idle ans h fuel (i + 1)

/-- The daemon of `fresh` with `n` connections, on the first free descriptors. -/
structure Holds (n : Nat) (d : SessionDaemon) : Prop where
  listener : d.listenerFd = 3
  pty : d.pty.fd = 4
  flag : d.evictAttached = false
  fds : d.fds = List.range' 5 n

theorem Holds.free {n : Nat} {d : SessionDaemon} (h : Holds n d) : d.Unused (5 + n) := by
  have hne : ∀ m < 5, 5 + n ≠ m := fun m hm => by omega
  refine ⟨?_, h.listener ▸ hne 3 (by decide), h.pty ▸ hne 4 (by decide)⟩
  rw [show d.clients.map (·.fd) = d.fds from rfl, h.fds, List.mem_range'_1]
  omega

theorem Holds.admits {n : Nat} {d : SessionDaemon} (h : Holds n d) (fd : RawFd) : d.admits (connects fd) = some fd := by
  have hl : d.listenerFd ∈ d.readSet.filter (· ∈ [3]) := by simp [readSet, h.listener]
  show (if d.listenerFd ∈ d.readSet.filter (· ∈ [3]) then some fd else none) = some fd
  rw [if_pos hl]

theorem Holds.connect {n : Nat} {d : SessionDaemon} (h : Holds n d) :
    (d.turn (connects (5 + n))).next = .again ∧ Holds (n + 1) (d.turn (connects (5 + n))).d := by
  have hsel : fdSelect d.readSet d.writeSet (connects (5 + n)).sel =
      .ok (d.readSet.filter (· ∈ [3]), d.writeSet.filter (· ∈ ([] : List RawFd))) := rfl
  have hl : d.listenerFd ∈ d.readSet.filter (· ∈ [3]) := by simp [readSet, h.listener]
  have hw : d.writeSet.filter (· ∈ ([] : List RawFd)) = [] := List.filter_eq_nil_iff.2 (by simp)
  generalize hr : d.readSet.filter (· ∈ [3]) = rfds at hsel hl
  have honly : ∀ f ∈ rfds, f = 3 := fun f hf => by
    rw [← hr] at hf
    simpa using (List.mem_filter.1 hf).2
  have hptyNot : d.pty.fd ∉ rfds := fun hp => by
    have := honly _ hp
    rw [h.pty] at this
    cases this
  unfold turn
  rw [hsel, hw]
  simp only
  rw [if_pos hl]
  -- the daemon with its new client
  generalize ha : d.buildFdSets.1.acceptClient (connects (5 + n)).accept (connects (5 + n)).took = a
  have haf : a.1.fds = List.range' 5 (n + 1) := by
    rw [← ha, List.range'_concat, ← h.fds]
    simp [connects, acceptClient, SessionDaemon.fds, buildFdSets]
  have hal : a.1.listenerFd = 3 := by rw [← ha]; exact h.listener
  have hap : a.1.pty = d.pty := by rw [← ha]; rfl
  have hae : a.1.evictAttached = false := by rw [← ha]; exact h.flag
  have hidle : a.1.handleClientPackets rfds (connects (5 + n)).packets = (a.1, []) := by
    refine packetLoop_idle _ (fun f hf hin => ?_) _ _
    rw [haf, List.mem_range'_1, honly f hin] at hf
    omega
  have hev : a.1.evict = (a.1, []) := by rw [evict, hae]; rfl
  have hquiet : (a.1.drainReplay [] (connects (5 + n)).drains).1.handlePtyOutput rfds (connects (5 + n)) =
      ⟨(a.1.drainReplay [] (connects (5 + n)).drains).1, [], .again⟩ := if_neg (by
    rw [show (a.1.drainReplay [] (connects (5 + n)).drains).1.pty = d.pty from hap]
    exact hptyNot)
  rw [hidle, hev, hquiet]
  refine ⟨rfl, hal, ?_, hae, ?_⟩
  · rw [show (a.1.drainReplay [] (connects (5 + n)).drains).1.pty = d.pty from hap]
    exact h.pty
  · rw [drain_fds, haf]

def connections (n : Nat) : List TurnAns := (List.range n).map (fun i => connects (5 + i))

theorem connections_succ (n : Nat) : connections (n + 1) = connections n ++ [connects (5 + n)] := by
  rw [connections, List.range_succ, List.map_append]
  rfl

/-- The kernel's part of a turn, and that the daemon goes on after it. -/
def GoesOn (d : SessionDaemon) (k : TurnAns) : Prop :=
  d.Possible (.accept k.accept k.took) ∧ (d.turn k).next = .again

theorem connections_hold : ∀ n : Nat, Along fdTurn GoesOn fresh (connections n) ∧
    Holds n (run fdTurn fresh (connections n)).1
  | 0 => ⟨trivial, rfl, rfl, rfl, rfl⟩
  | n + 1 => by
    obtain ⟨hgo, hn⟩ := connections_hold n
    rw [connections_succ, Machine.along_append, Machine.run_append, Machine.run_singleton]
    exact ⟨⟨hgo, ⟨hn.free, hn.connect.1⟩, trivial⟩, hn.connect.2⟩

theorem connections_put (n fd : Nat) (h : fd = 5 + n) : fd ∈ (run fdTurn fresh (connections (n + 1))).2 := by
  obtain ⟨-, hn⟩ := connections_hold n
  rw [connections_succ, Machine.run_append, Machine.run_singleton, h]
  exact List.mem_append_right _ ((mem_turnTests _ _ _).2 (.inr (.inr (.inr (hn.admits (5 + n))))))

/-- The 1020th connection's descriptor is past the end. -/
theorem fd_sets_overrun : ¬ ∀ (l : RawFd) (p : Pty) (log : Option SessionLog) (s g : String) (ks : List TurnAns),
    l ≠ p.fd → l < fdSetSize → p.fd < fdSetSize → Along fdTurn GoesOn (new l p log s g) ks →
    ∀ f ∈ (run fdTurn (new l p log s g) ks).2, f < fdSetSize := by
  intro h
  obtain ⟨n, hn⟩ : ∃ n, fdSetSize = 5 + n := ⟨1019, by simp [fdSetSize]⟩
  have hput := connections_put n fdSetSize hn
  obtain ⟨hgo, -⟩ := connections_hold (n + 1)
  have hlt := h 3 ⟨4, 100⟩ none "s" "zatch" (connections (n + 1)) (by decide) (by simp [fdSetSize])
    (by simp [fdSetSize]) hgo fdSetSize hput
  exact Nat.lt_irrefl _ hlt

end SessionDaemon

end Zatch
