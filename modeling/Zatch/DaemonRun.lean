import Zatch.Daemon
import Zatch.Lib.Machine
/-!
# DaemonRun — the daemon as a machine, and its turns as runs

The daemon's atomic steps are `Act`s: one packet of one client, one eviction, one `drain_replay`, one chunk of output.
`Reachable` is every state, with everything done up to it, that acts in any order reach from a new daemon, the kernel
handing out only descriptors that are not open and chunks that are not empty (`Possible`).  A turn of the event loop is
a run of acts (`turn_eq_run`), so what holds of every reachable state holds inside and after every turn.
-/
namespace Zatch

open Machine (run Along)

/-! ## `swap_remove` -/

theorem split_of_getElem? {α : Type} {l : List α} {i : Nat} {x : α} (h : l[i]? = some x) :
    ∃ pre post, l = pre ++ x :: post ∧ pre.length = i := by
  obtain ⟨hi, hx⟩ := List.getElem?_eq_some_iff.1 h
  refine ⟨l.take i, l.drop (i + 1), ?_, by rw [List.length_take]; omega⟩
  rw [← hx, ← List.drop_eq_getElem_cons hi, List.take_append_drop]

theorem swapRemove_last {α : Type} (pre : List α) (x : α) : swapRemove (pre ++ [x]) pre.length = pre := by
  simp [swapRemove]

theorem swapRemove_inner {α : Type} (pre mid : List α) (x y : α) :
    swapRemove (pre ++ x :: (mid ++ [y])) pre.length = pre ++ y :: mid := by
  have hlast : (pre ++ x :: (mid ++ [y])).getLast? = some y := by
    rw [← List.cons_append, ← List.append_assoc, List.getLast?_concat]
  rw [swapRemove, hlast]
  simp only
  rw [List.set_append_right _ _ (Nat.le_refl _), Nat.sub_self, List.set_cons_zero, ← List.cons_append,
    ← List.append_assoc, List.dropLast_concat]

/-- **`swap_remove` takes out one element**, whatever it does to the order. -/
theorem swapRemove_perm {α : Type} (pre post : List α) (x : α) :
    (swapRemove (pre ++ x :: post) pre.length).Perm (pre ++ post) := by
  rcases List.eq_nil_or_concat post with rfl | ⟨mid, y, rfl⟩
  · rw [swapRemove_last, List.append_nil]
  · rw [List.concat_eq_append, swapRemove_inner]
    apply List.Perm.append_left pre
    exact (List.perm_append_singleton y mid).symm

theorem modify_eq_set {α : Type} {l : List α} {i : Nat} {x : α} (f : α → α) (h : l[i]? = some x) :
    l.modify i f = l.set i (f x) := by
  have : Inhabited α := ⟨x⟩
  rw [List.modify_eq_set, h, Option.getD_some]

/-! ## What reaches a client -/

def Effect.replayOf (f : RawFd) : Effect → List Byte
  | .replayed g bs => if g = f then bs else []
  | _ => []

def Effect.liveOf (f : RawFd) : Effect → List Byte
  | .live g bs => if g = f then bs else []
  | _ => []

def replayedTo (f : RawFd) (fx : List Effect) : List Byte := fx.flatMap (Effect.replayOf f)

def liveTo (f : RawFd) (fx : List Effect) : List Byte := fx.flatMap (Effect.liveOf f)

/-- Everything of the PTY's output sent to a descriptor, from the scrollback and live, in the order it was sent. -/
def outTo (f : RawFd) (fx : List Effect) : List Byte := fx.flatMap (fun e => e.replayOf f ++ e.liveOf f)

section
variable (f : RawFd) (fx fy : List Effect)

@[simp] theorem replayedTo_nil : replayedTo f [] = [] := rfl
@[simp] theorem liveTo_nil : liveTo f [] = [] := rfl
@[simp] theorem outTo_nil : outTo f [] = [] := rfl

@[simp] theorem replayedTo_append : replayedTo f (fx ++ fy) = replayedTo f fx ++ replayedTo f fy := List.flatMap_append
@[simp] theorem liveTo_append : liveTo f (fx ++ fy) = liveTo f fx ++ liveTo f fy := List.flatMap_append
@[simp] theorem outTo_append : outTo f (fx ++ fy) = outTo f fx ++ outTo f fy := List.flatMap_append

@[simp] theorem replayedTo_cons (e : Effect) : replayedTo f (e :: fx) = e.replayOf f ++ replayedTo f fx := rfl
@[simp] theorem liveTo_cons (e : Effect) : liveTo f (e :: fx) = e.liveOf f ++ liveTo f fx := rfl
@[simp] theorem outTo_cons (e : Effect) : outTo f (e :: fx) = e.replayOf f ++ e.liveOf f ++ outTo f fx := rfl

theorem outTo_of_live_nil : ∀ (fx : List Effect), liveTo f fx = [] → outTo f fx = replayedTo f fx
  | [], _ => rfl
  | e :: fx, h => by
    simp only [liveTo_cons, List.append_eq_nil_iff] at h
    rw [outTo_cons, replayedTo_cons, h.1, List.append_nil, outTo_of_live_nil fx h.2]

theorem length_outTo : ∀ (fx : List Effect), (outTo f fx).length = (replayedTo f fx).length + (liveTo f fx).length
  | [] => rfl
  | e :: fx => by
    rw [outTo_cons, replayedTo_cons, liveTo_cons]
    simp only [List.length_append, length_outTo fx]
    omega

theorem outTo_of_replayed_nil : ∀ (fx : List Effect), replayedTo f fx = [] → outTo f fx = liveTo f fx
  | [], _ => rfl
  | e :: fx, h => by
    simp only [replayedTo_cons, List.append_eq_nil_iff] at h
    rw [outTo_cons, liveTo_cons, h.1, List.nil_append, outTo_of_replayed_nil fx h.2]

end

/-! ## Acts -/

namespace SessionDaemon

/-- One atomic step of the daemon, with the kernel's answers to it. -/
inductive Act
  | poll
  | accept (r : AcceptRet) (took : Nat)
  | packet (i : Nat) (p : PacketAns)
  | evict
  | drain (wfds : FdSet) (ans : RawFd → List WriteRet)
  | output (data : List Byte) (took : Nat) (rounds : List Round)

def act (d : SessionDaemon) : Act → SessionDaemon × List Effect
  | .poll => d.buildFdSets
  | .accept r took => d.acceptClient r took
  | .packet i p =>
    match d.clients[i]? with
    | none => (d, [])
    | some c => ((d.visit i c.fd p).d, (d.visit i c.fd p).fx)
  | .evict => d.evict
  | .drain wfds ans => d.drainReplay wfds ans
  | .output data took rounds => d.forward data took rounds

def Unused (d : SessionDaemon) (fd : RawFd) : Prop :=
  fd ∉ d.clients.map (·.fd) ∧ fd ≠ d.listenerFd ∧ fd ≠ d.pty.fd

/-- The kernel's part of an act: `accept` returns a descriptor that is not open, and a chunk of output has a byte. -/
def Possible (d : SessionDaemon) : Act → Prop
  | .accept (.conn fd _ _) _ => d.Unused fd
  | .output data _ _ => data ≠ []
  | _ => True

instance (d : SessionDaemon) (a : Act) : Decidable (d.Possible a) :=
  match a with
  | .accept (.conn fd _ _) _ => inferInstanceAs (Decidable (fd ∉ d.clients.map (·.fd) ∧ fd ≠ d.listenerFd ∧ fd ≠ d.pty.fd))
  | .accept (.fail _) _ | .poll | .packet _ _ | .evict | .drain _ _ => isTrue trivial
  | .output data _ _ => inferInstanceAs (Decidable (data ≠ []))

/-- The states acts reach from a new daemon, each with everything done up to it. -/
inductive Reachable : SessionDaemon → List Effect → Prop
  | new {l : RawFd} {p : Pty} (log : Option SessionLog) (s g : String) (h : l ≠ p.fd) : Reachable (new l p log s g) []
  | step {d : SessionDaemon} {fx : List Effect} (a : Act) (hd : Reachable d fx) (ha : d.Possible a) :
      Reachable (d.act a).1 (fx ++ (d.act a).2)

theorem Reachable.of_run {d : SessionDaemon} {fx : List Effect} (h : Reachable d fx) {as : List Act}
    (has : Along act Possible d as) : Reachable (run act d as).1 (fx ++ (run act d as).2) :=
  Along.history (R := Reachable) (fun _ a _ hd ha => Reachable.step a hd ha) h has

/-! ## Turns are runs -/

theorem packetLoop_eq_run (rfds : FdSet) (ans : RawFd → PacketAns) :
    ∀ (fuel i : Nat) (d : SessionDaemon), ∃ as : List Act,
      (∀ a ∈ as, ∃ i p, a = .packet i p) ∧ packetLoop rfds ans fuel i d = run act d as
  | 0, _, _ => ⟨[], by simp, rfl⟩
  | fuel + 1, i, d => by
    unfold packetLoop
    split
    · exact ⟨[], by simp, rfl⟩
    · rename_i c hc
      split
      · obtain ⟨as, hp, has⟩ := packetLoop_eq_run rfds ans fuel
          (if (d.visit i c.fd (ans c.fd)).keep then i + 1 else i) (d.visit i c.fd (ans c.fd)).d
        have hact : d.act (.packet i (ans c.fd)) =
            ((d.visit i c.fd (ans c.fd)).d, (d.visit i c.fd (ans c.fd)).fx) := by
          simp only [act, hc]
        refine ⟨.packet i (ans c.fd) :: as, ?_, ?_⟩
        · intro a ha
          rcases List.mem_cons.1 ha with rfl | ha
          · exact ⟨i, ans c.fd, rfl⟩
          · exact hp a ha
        · rw [Machine.run_cons, hact, ← has]
      · exact packetLoop_eq_run rfds ans fuel (i + 1) d

theorem along_possible_of_packets {as : List Act} (h : ∀ a ∈ as, ∃ i p, a = .packet i p) :
    ∀ d : SessionDaemon, Along act Possible d as := by
  induction as with
  | nil => exact fun _ => trivial
  | cons a as ih =>
    intro d
    obtain ⟨i, p, rfl⟩ := h a List.mem_cons_self
    exact ⟨trivial, ih (fun b hb => h b (List.mem_cons_of_mem _ hb)) _⟩

theorem handlePtyOutput_eq_run (d : SessionDaemon) (rfds : FdSet) (k : TurnAns)
    (h : ∀ n, (d.handlePtyOutput rfds k).next ≠ .exited n) : ∃ as : List Act,
      (∀ a ∈ as, ∃ data, data ≠ [] ∧ a = .output data k.took k.rounds) ∧
      run act d as = ((d.handlePtyOutput rfds k).d, (d.handlePtyOutput rfds k).fx) := by
  unfold handlePtyOutput at h ⊢
  split
  · rename_i hp
    rw [if_pos hp] at h
    split
    · rename_i hk; simp only [hk] at h; exact absurd rfl (h _)
    · rename_i b bs hk
      refine ⟨[.output ((b :: bs).take bufsize) k.took k.rounds], fun a ha => ?_, Machine.run_singleton _ _⟩
      exact ⟨_, by simp [bufsize], List.mem_singleton.1 ha⟩
    · rename_i e hk; simp only [hk] at h; exact absurd rfl (h _)
    · exact ⟨[], by simp, rfl⟩
  · exact ⟨[], by simp, rfl⟩

/-- **A turn of the event loop that does not end the daemon is a run of acts**: the poll, the accept, the batch of
packets, the eviction, the drain of the replays, and the chunk of output. -/
theorem turn_eq_run (d : SessionDaemon) (k : TurnAns) (h : ∀ n, (d.turn k).next ≠ .exited n)
    (hposs : d.Possible (.accept k.accept k.took)) :
    ∃ as : List Act, Along act Possible d as ∧ run act d as = ((d.turn k).d, (d.turn k).fx) := by
  unfold turn at h ⊢
  cases hs : fdSelect d.readSet d.writeSet k.sel with
  | error e =>
    rw [hs] at h
    cases e with
    | eintr => exact ⟨[.poll], ⟨trivial, trivial⟩, Machine.run_singleton _ _⟩
    | eagain => exact absurd rfl (h 0)
    | other n => exact absurd rfl (h 0)
  | ok s =>
    rw [hs] at h
    obtain ⟨rfds, wfds⟩ := s
    simp only at h ⊢
    generalize hb : d.buildFdSets = b at h ⊢
    have hb1 : b.1.Possible (.accept k.accept k.took) := by
      rw [← hb]
      cases hk : k.accept with
      | conn fd nb cred => rw [hk] at hposs; exact hposs
      | fail e => trivial
    obtain ⟨aa, haa, ha⟩ : ∃ aa : List Act, Along act Possible b.1 aa ∧ run act b.1 aa =
        (if d.listenerFd ∈ rfds then b.1.acceptClient k.accept k.took else (b.1, [])) := by
      split
      · exact ⟨[.accept k.accept k.took], ⟨hb1, trivial⟩, Machine.run_singleton _ _⟩
      · exact ⟨[], trivial, rfl⟩
    rw [← ha] at h ⊢
    obtain ⟨ap, hap, hp⟩ := packetLoop_eq_run rfds k.packets (run act b.1 aa).1.clients.length 0 (run act b.1 aa).1
    unfold handleClientPackets at h ⊢
    rw [hp] at h ⊢
    generalize hda : run act b.1 aa = a at h hap hp ⊢
    generalize hdp : run act a.1 ap = p at h ⊢
    obtain ⟨ao, hao, ho⟩ := handlePtyOutput_eq_run (p.1.evict.1.drainReplay wfds k.drains).1 rfds k h
    refine ⟨.poll :: (aa ++ (ap ++ (.evict :: .drain wfds k.drains :: ao))), ?_, ?_⟩
    · refine ⟨trivial, ?_⟩
      rw [show (d.act .poll).1 = b.1 by rw [← hb]; rfl, Machine.along_append, hda, Machine.along_append]
      refine ⟨haa, along_possible_of_packets hap _, trivial, trivial, ?_⟩
      refine (Machine.along_iff _ _ _).2 (fun pre x post hx => ?_)
      obtain ⟨data, hdata, rfl⟩ := hao x (by rw [hx]; simp)
      exact hdata
    · rw [Machine.run_cons, show d.act .poll = b from hb, Machine.run_append, hda, Machine.run_append, hdp,
        Machine.run_cons, show p.1.act .evict = p.1.evict from rfl, Machine.run_cons,
        show p.1.evict.1.act (.drain wfds k.drains) = p.1.evict.1.drainReplay wfds k.drains from rfl, ho]
      simp only [List.append_assoc]

/-- **What a turn reaches is reachable.** -/
theorem Reachable.turn {d : SessionDaemon} {fx : List Effect} (hd : Reachable d fx) (k : TurnAns)
    (h : ∀ n, (d.turn k).next ≠ .exited n) (hposs : d.Possible (.accept k.accept k.took)) :
    Reachable (d.turn k).d (fx ++ (d.turn k).fx) := by
  obtain ⟨as, has, hrun⟩ := turn_eq_run d k h hposs
  have := hd.of_run has
  rwa [hrun] at this

end SessionDaemon

end Zatch
