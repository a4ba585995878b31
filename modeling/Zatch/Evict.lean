import Zatch.Replay
/-!
# Evict — a batch of packets and the eviction after it

`handle_client_packets` turns to each of its clients once, whatever `swap_remove` does to their order
(`handleClientPackets_spec`), and takes out the ones it has to (`handleClientPackets_once`).  A ForceDetach evicts the
clients that are attached, and these are the ones that have asked for the session unless a replay or a Detach in the middle
of one has come in between (`forceDetach_iff`).  Whether one has is a matter of what the batch finds each client in and what
it brings (`next_between_iff`).
-/
namespace Zatch

open Machine (run Along)

namespace SessionDaemon

/-! ## A batch of packets -/

/-- What a batch makes of a client: `none` when it is closed and removed. -/
def afterBatch (r : Ring) (rfds : FdSet) (ans : RawFd → PacketAns) (c : Client) : Option Client :=
  if c.fd ∈ rfds then c.next r (ans c.fd) else some c

def readBy (rfds : FdSet) (ans : RawFd → PacketAns) (c : Client) : Option (RawFd × Except ProtocolError Packet) :=
  if c.fd ∈ rfds then some (c.fd, (ans c.fd).res) else none

/-- `swap_remove` leaves what is before the index, and what is after it in some order. -/
theorem swapRemove_front {α : Type} (done rest : List α) (x : α) :
    ∃ rest', rest'.Perm rest ∧ swapRemove (done ++ x :: rest) done.length = done ++ rest' := by
  rcases List.eq_nil_or_concat rest with rfl | ⟨mid, y, rfl⟩
  · exact ⟨[], List.Perm.refl _, by rw [swapRemove_last, List.append_nil]⟩
  · exact ⟨y :: mid, by rw [List.concat_eq_append]; exact (List.perm_append_singleton y mid).symm,
      by rw [List.concat_eq_append, swapRemove_inner]⟩

theorem visit_keep (d : SessionDaemon) {i : Nat} {c : Client} (p : PacketAns) (hi : d.clients[i]? = some c) :
    (d.visit i c.fd p).keep = (c.next d.scrollback p).isSome := by
  obtain ⟨fx, -, hv⟩ := visit_spec d p hi
  rw [hv]
  cases c.next d.scrollback p <;> rfl

/-- **One turn of the loop**, at the first of the clients it has still before it: the client stays as its packet leaves it
and the loop moves on, or it is removed and the rest come in some order. -/
theorem visit_todo (d : SessionDaemon) {done rest : List Client} {x : Client} (p : PacketAns)
    (hcl : d.clients = done ++ x :: rest) :
    (∃ x', x.next d.scrollback p = some x' ∧ (d.visit done.length x.fd p).keep = true ∧
      (d.visit done.length x.fd p).d.clients = (done ++ [x']) ++ rest) ∨
    (x.next d.scrollback p = none ∧ (d.visit done.length x.fd p).keep = false ∧
      ∃ rest', rest'.Perm rest ∧ (d.visit done.length x.fd p).d.clients = done ++ rest') := by
  have hx : d.clients[done.length]? = some x := by rw [hcl]; simp
  have hkeep := visit_keep d p hx
  have hvcl := packet_clients d p hx
  rw [act_packet d p hx] at hvcl
  cases hn : x.next d.scrollback p with
  | some x' =>
    rw [hn] at hkeep hvcl
    refine .inl ⟨x', rfl, hkeep, hvcl.trans ?_⟩
    simp only [hcl]
    rw [List.set_append_right _ _ (Nat.le_refl _), Nat.sub_self, List.set_cons_zero, List.append_assoc]
    rfl
  | none =>
    rw [hn] at hkeep hvcl
    obtain ⟨rest', hperm, hswap⟩ := swapRemove_front done rest x
    exact .inr ⟨rfl, hkeep, rest', hperm, hvcl.trans (by simp only [hcl, hswap])⟩

/-- What the loop leaves to be done, from the clients it has been through and those it has still to turn to. -/
structure LoopSpec (r : Ring) (flag : Bool) (rfds : FdSet) (ans : RawFd → PacketAns) (done todo : List Client)
    (o : SessionDaemon × List Effect) : Prop where
  clients : o.1.clients.Perm (done ++ todo.filterMap (afterBatch r rfds ans))
  reads : (readsOf o.2).Perm (todo.filterMap (readBy rfds ans))
  evict : o.1.evictAttached = true ↔ flag = true ∨ ∃ c ∈ todo, c.fd ∈ rfds ∧ (ans c.fd).forces = true
  closed : ∀ c ∈ todo, afterBatch r rfds ans c = none → Effect.closed c.fd ∈ o.2

/-- One round of the loop, about the client `x` it turns to, and what it leaves for the rounds after it. -/
theorem LoopSpec.cons {r : Ring} {flag flag' : Bool} {rfds : FdSet} {ans : RawFd → PacketAns}
    {done rest rest' : List Client} {x : Client} {fx : List Effect} {o : SessionDaemon × List Effect}
    (h : LoopSpec r flag' rfds ans (done ++ (afterBatch r rfds ans x).toList) rest' o) (hperm : rest'.Perm rest)
    (hread : readsOf fx = (readBy rfds ans x).toList)
    (hflag : flag' = true ↔ flag = true ∨ x.fd ∈ rfds ∧ (ans x.fd).forces = true)
    (hclosed : afterBatch r rfds ans x = none → Effect.closed x.fd ∈ fx) :
    LoopSpec r flag rfds ans done (x :: rest) (o.1, fx ++ o.2) where
  clients := by
    have hcons : done ++ (x :: rest).filterMap (afterBatch r rfds ans) =
        done ++ (afterBatch r rfds ans x).toList ++ rest.filterMap (afterBatch r rfds ans) := by
      rw [List.filterMap_cons, List.append_assoc]
      cases afterBatch r rfds ans x <;> rfl
    rw [hcons]
    exact h.clients.trans ((hperm.filterMap _).append_left _)
  reads := by
    have hcons : (x :: rest).filterMap (readBy rfds ans) =
        (readBy rfds ans x).toList ++ rest.filterMap (readBy rfds ans) := by
      rw [List.filterMap_cons]
      cases readBy rfds ans x <;> rfl
    rw [hcons, readsOf_append, hread]
    exact (h.reads.trans (hperm.filterMap _)).append_left _
  evict := by
    rw [List.exists_mem_cons_iff, ← or_assoc, ← hflag]
    exact h.evict.trans (or_congr_right (exists_congr (fun c => and_congr_left' hperm.mem_iff)))
  closed := fun c hc hno => by
    rcases List.mem_cons.1 hc with rfl | hc
    · exact List.mem_append_left _ (hclosed hno)
    · exact List.mem_append_right _ (h.closed c (hperm.mem_iff.2 hc) hno)

/-- **The loop turns to each client it has still before it once.** -/
theorem packetLoop_spec (rfds : FdSet) (ans : RawFd → PacketAns) : ∀ (fuel : Nat) (done todo : List Client)
    (d : SessionDaemon), d.clients = done ++ todo → todo.length ≤ fuel →
    LoopSpec d.scrollback d.evictAttached rfds ans done todo (packetLoop rfds ans fuel done.length d)
  | fuel, done, [], d, hcl, _ => by
    have hend : d.clients[done.length]? = none := by rw [hcl, List.append_nil]; simp
    have hloop : packetLoop rfds ans fuel done.length d = (d, []) := by
      cases fuel with
      | zero => rfl
      | succ fuel => rw [packetLoop, hend]
    rw [hloop]
    exact ⟨by rw [hcl]; simp, by simp, by simp, by simp⟩
  | 0, _, _ :: _, _, _, hf => absurd hf (by simp)
  | fuel + 1, done, x :: rest, d, hcl, hf => by
    have hx : d.clients[done.length]? = some x := by rw [hcl]; simp
    rw [List.length_cons] at hf
    rw [packetLoop, hx]
    by_cases hin : x.fd ∈ rfds
    · simp only [if_pos hin]
      have hafter : afterBatch d.scrollback rfds ans x = x.next d.scrollback (ans x.fd) := if_pos hin
      have hread : readBy rfds ans x = some (x.fd, (ans x.fd).res) := if_pos hin
      have hsb := act_scrollback d (.packet done.length (ans x.fd))
      have hvev := packet_evictAttached d (ans x.fd) hx
      have hvrd := packet_reads d (ans x.fd) hx
      have hvclosed := packet_closed d (ans x.fd) hx
      have htodo := visit_todo d (ans x.fd) hcl
      rw [act_packet d (ans x.fd) hx] at hsb hvev hvrd hvclosed
      simp only at hsb hvev hvrd hvclosed
      generalize d.visit done.length x.fd (ans x.fd) = h at hsb hvev hvrd hvclosed htodo
      have hflag : h.d.evictAttached = true ↔ d.evictAttached = true ∨ x.fd ∈ rfds ∧ (ans x.fd).forces = true := by
        rw [hvev, Bool.or_eq_true]
        simp only [hin, true_and]
      rcases htodo with ⟨x', hn, hkeep, hset⟩ | ⟨hn, hkeep, rest', hperm, hswap⟩
      · -- the client stays in its place, and the loop moves on
        rw [hn] at hafter
        have ih := packetLoop_spec rfds ans fuel (done ++ [x']) rest h.d hset (by omega)
        rw [hsb, List.length_append, List.length_singleton] at ih
        rw [hkeep, if_pos rfl]
        refine LoopSpec.cons (by rw [hafter]; exact ih) (List.Perm.refl _) (by rw [hvrd, hread]; rfl) hflag (fun hno => ?_)
        rw [hafter] at hno
        cases hno
      · -- another client takes its place, and the loop stays
        rw [hn] at hafter
        have ih := packetLoop_spec rfds ans fuel done rest' h.d hswap (by rw [hperm.length_eq]; omega)
        rw [hsb] at ih
        rw [hkeep, if_neg Bool.false_ne_true]
        exact LoopSpec.cons (by rw [hafter, Option.toList_none, List.append_nil]; exact ih) hperm
          (by rw [hvrd, hread]; rfl) hflag (fun _ => hvclosed hn)
    · simp only [if_neg hin]
      have hafter : afterBatch d.scrollback rfds ans x = some x := if_neg hin
      have hread : readBy rfds ans x = none := if_neg hin
      have ih := packetLoop_spec rfds ans fuel (done ++ [x]) rest d (by rw [hcl, List.append_assoc]; rfl) (by omega)
      rw [List.length_append, List.length_singleton] at ih
      have hquiet : readsOf [] = (readBy rfds ans x).toList := by rw [hread]; rfl
      refine LoopSpec.cons (by rw [hafter]; exact ih) (List.Perm.refl _) hquiet ?_ (fun hno => ?_)
      · rw [or_iff_left (fun hb => hin hb.1)]
      · rw [hafter] at hno
        cases hno

/-- **A batch of packets** turns to each client once. -/
theorem handleClientPackets_spec (d : SessionDaemon) (rfds : FdSet) (ans : RawFd → PacketAns) :
    LoopSpec d.scrollback d.evictAttached rfds ans [] d.clients (d.handleClientPackets rfds ans) :=
  packetLoop_spec rfds ans d.clients.length [] d.clients d rfl (Nat.le_refl _)

/-- **No round of the loop is wasted**: each one moves on or removes a client, so more rounds than there are clients left
change nothing. -/
theorem packetLoop_fuel (rfds : FdSet) (ans : RawFd → PacketAns) (n : Nat) : ∀ (fuel i : Nat) (d : SessionDaemon),
    d.clients.length ≤ fuel + i → packetLoop rfds ans (fuel + n) i d = packetLoop rfds ans fuel i d
  | 0, i, d, h => by
    have hend : d.clients[i]? = none := List.getElem?_eq_none (by omega)
    cases n with
    | zero => rfl
    | succ n => rw [Nat.zero_add, packetLoop, packetLoop, hend]
  | fuel + 1, i, d, h => by
    rw [Nat.add_right_comm, packetLoop, packetLoop]
    cases hx : d.clients[i]? with
    | none => rfl
    | some x =>
      simp only
      split
      · obtain ⟨done, rest, hcl, rfl⟩ := split_of_getElem? hx
        rw [hcl, List.length_append, List.length_cons] at h
        rcases visit_todo d (ans x.fd) hcl with ⟨x', -, hkeep, hset⟩ | ⟨-, hkeep, rest', hperm, hswap⟩
        · rw [hkeep, if_pos rfl, packetLoop_fuel rfds ans n fuel (done.length + 1) _ (by rw [hset]; simp; omega)]
        · have hlen := hperm.length_eq
          rw [hkeep, if_neg Bool.false_ne_true,
            packetLoop_fuel rfds ans n fuel done.length _ (by rw [hswap]; simp; omega)]
      · exact packetLoop_fuel rfds ans n fuel (i + 1) d (by omega)

/-- What a client is removed for: the end of its stream, an error, or a packet whose handler says so. -/
def turnedAway : Except ProtocolError Packet → Bool
  | .ok pkt => decide (MsgType.fromU8 pkt.msgType = some .forceDetach ∨ MsgType.fromU8 pkt.msgType = some .info)
  | .error e => decide (e ≠ .wouldBlock)

theorem dispatch_keep (d : SessionDaemon) (i : Nat) (cfd : RawFd) (pkt : Packet) (p : PacketAns) :
    (d.dispatch i cfd pkt p).keep = !turnedAway (.ok pkt) := by
  simp only [dispatch, turnedAway]
  cases MsgType.fromU8 pkt.msgType with
  | none => rfl
  | some t =>
    cases t with
    | push =>
      simp only [handlePush]
      split <;> rfl
    | attach =>
      simp only [handleAttach]
      split <;> rfl
    | redraw =>
      simp only [handleRedraw]
      split
      · split <;> rfl
      · split <;> rfl
    | _ => rfl

theorem next_eq_none_iff {r : Ring} {p : PacketAns} {c : Client} : c.next r p = none ↔ turnedAway p.res = true := by
  unfold Client.next turnedAway
  cases p.res with
  | ok pkt =>
    dsimp only
    cases MsgType.fromU8 pkt.msgType with
    | none => simp
    | some t => cases t <;> simp
  | error e => cases e <;> simp

/-- What a client that stays is after the batch. -/
theorem next_frame {r : Ring} {p : PacketAns} {c c' : Client} (h : c.next r p = some c') :
    c'.fd = c.fd ∧ c'.peerPid = c.peerPid ∧ (c' ≠ c → ∃ pkt, p.Brings .attach pkt ∨ p.Brings .detach pkt) := by
  by_cases hat : ∃ pkt, p.Brings .attach pkt
  · obtain ⟨pkt, hp⟩ := hat
    rw [Client.next_attach hp] at h
    refine ⟨Client.next_fd ((Client.next_attach hp c).trans h), ?_, fun _ => ⟨pkt, .inl hp⟩⟩
    obtain rfl := Option.some.inj h
    split <;> rfl
  · rcases Client.next_of_not_attach (fun pkt hp => hat ⟨pkt, hp⟩) h with rfl | ⟨rfl, pkt, hp⟩
    · exact ⟨rfl, rfl, fun hne => absurd rfl hne⟩
    · exact ⟨rfl, rfl, fun _ => ⟨pkt, .inr hp⟩⟩

theorem filterMap_eq_map_filter {α β : Type} (f : α → Option β) (g : α → β) (out : α → Bool)
    (hnone : ∀ x, out x = true → f x = none) (hsome : ∀ x, out x = false → f x = some (g x)) (l : List α) :
    l.filterMap f = (l.filter (fun x => !out x)).map g := by
  induction l with
  | nil => rfl
  | cons x l ih =>
    cases hx : out x with
    | true => rw [List.filterMap_cons_none (hnone x hx), List.filter_cons_of_neg (by simp [hx]), ih]
    | false => rw [List.filterMap_cons_some (hsome x hx), List.filter_cons_of_pos (by simp [hx]), List.map_cons, ih]

/-- **One call of `handle_client_packets`** ends, reads once from each readable client it finds, removes exactly those that
are turned away, and leaves the others as they were, an Attach or a Detach of their own apart. -/
theorem handleClientPackets_once (d : SessionDaemon) (rfds : FdSet) (ans : RawFd → PacketAns) :
    (∀ n, packetLoop rfds ans (d.clients.length + n) 0 d = d.handleClientPackets rfds ans) ∧
    (readsOf (d.handleClientPackets rfds ans).2).Perm
      ((d.clients.filter (fun c => decide (c.fd ∈ rfds))).map (fun c => (c.fd, (ans c.fd).res))) ∧
    (∀ (d' : SessionDaemon) i cfd pkt p, (d'.dispatch i cfd pkt p).keep = !turnedAway (.ok pkt)) ∧
    ∃ after : Client → Client,
      (d.handleClientPackets rfds ans).1.clients.Perm
        ((d.clients.filter (fun c => !(decide (c.fd ∈ rfds) && turnedAway (ans c.fd).res))).map after) ∧
      ∀ c, (after c).fd = c.fd ∧ (after c).peerPid = c.peerPid ∧
        (after c ≠ c → c.fd ∈ rfds ∧ ∃ pkt, (ans c.fd).Brings .attach pkt ∨ (ans c.fd).Brings .detach pkt) := by
  have hspec := handleClientPackets_spec d rfds ans
  refine ⟨fun n => packetLoop_fuel rfds ans n d.clients.length 0 d (Nat.le_refl _), ?_, dispatch_keep,
    fun c => (afterBatch d.scrollback rfds ans c).getD c, ?_, fun c => ?_⟩
  · have hreads : d.clients.filterMap (readBy rfds ans) =
        (d.clients.filter (fun c => !decide (c.fd ∉ rfds))).map (fun c => (c.fd, (ans c.fd).res)) := by
      apply filterMap_eq_map_filter
      · exact fun c hc => if_neg (of_decide_eq_true hc)
      · exact fun c hc => if_pos (Decidable.not_not.1 (of_decide_eq_false hc))
    have h := hspec.reads
    rw [hreads] at h
    simpa only [decide_not, Bool.not_not] using h
  · have h := hspec.clients
    rw [List.nil_append] at h
    refine h.trans (List.Perm.of_eq ?_)
    apply filterMap_eq_map_filter
    · intro c hc
      rw [Bool.and_eq_true, decide_eq_true_eq] at hc
      rw [afterBatch, if_pos hc.1]
      exact next_eq_none_iff.2 hc.2
    · intro c hc
      have hsome : afterBatch d.scrollback rfds ans c ≠ none := by
        intro hno
        unfold afterBatch at hno
        by_cases hin : c.fd ∈ rfds
        · rw [if_pos hin] at hno
          rw [next_eq_none_iff.1 hno, decide_eq_true hin] at hc
          cases hc
        · rw [if_neg hin] at hno
          cases hno
      obtain ⟨c', hc'⟩ := Option.ne_none_iff_exists'.1 hsome
      rw [hc', Option.getD_some]
  · simp only [afterBatch]
    by_cases hin : c.fd ∈ rfds
    · rw [if_pos hin]
      cases hn : c.next d.scrollback (ans c.fd) with
      | none => exact ⟨rfl, rfl, fun hne => absurd rfl hne⟩
      | some c' =>
        obtain ⟨h1, h2, h3⟩ := next_frame hn
        exact ⟨h1, h2, fun hne => ⟨hin, h3 hne⟩⟩
    · rw [if_neg hin]
      exact ⟨rfl, rfl, fun hne => absurd rfl hne⟩

/-! ## Who has asked for the session -/

/-- What a read changes in whether a connection has asked for the session. -/
def askedBy (w : Bool) : Except ProtocolError Packet → Bool
  | .ok pkt =>
    match MsgType.fromU8 pkt.msgType with
    | some .attach => true
    | some .detach => false
    | _ => w
  | .error _ => w

def asksStep (f : RawFd) (w : Bool) : Effect → Bool
  | .accepted g => if g = f then false else w
  | .read g res => if g = f then askedBy w res else w
  | _ => w

/-- The connection on a descriptor has sent an Attach, and no Detach after its last one. -/
def asked (f : RawFd) (fx : List Effect) : Bool := fx.foldl (asksStep f) false

theorem asked_append (f : RawFd) (fx fy : List Effect) : asked f (fx ++ fy) = fy.foldl (asksStep f) (asked f fx) :=
  List.foldl_append

theorem foldl_asksStep_still {f : RawFd} : ∀ {fx : List Effect} (w : Bool), (∀ e ∈ fx, ∀ w, asksStep f w e = w) →
    fx.foldl (asksStep f) w = w
  | [], _, _ => rfl
  | e :: fx, w, h => by
    rw [List.foldl_cons, h e List.mem_cons_self]
    exact foldl_asksStep_still w (fun e' he' => h e' (List.mem_cons_of_mem _ he'))

theorem asksStep_of_silent (f : RawFd) {fx : List Effect} (h : ∀ e ∈ fx, e.silent = true) :
    ∀ e ∈ fx, ∀ w, asksStep f w e = w := by
  intro e he w
  have := h e he
  cases e <;> first | rfl | cases this

theorem asked_still (f : RawFd) (fx : List Effect) (d : SessionDaemon) {a : Act} (hacc : ∀ r took, a ≠ .accept r took)
    (hpkt : ∀ i p, a ≠ .packet i p) : asked f (fx ++ (d.act a).2) = asked f fx := by
  rw [asked_append]
  apply foldl_asksStep_still _
  cases a with
  | poll => exact fun e he w => by rw [List.mem_singleton.1 he]; rfl
  | accept r took => exact absurd rfl (hacc r took)
  | packet i p => exact absurd rfl (hpkt i p)
  | evict => exact asksStep_of_silent f (silent_evict d)
  | drain wfds ans =>
    intro e he w
    obtain ⟨fd, sent, rfl⟩ := mem_drain he
    rfl
  | output data took rounds =>
    obtain ⟨-, lg, hs, hfx⟩ := forward_sent d data took rounds
    show ∀ e ∈ (d.forward data took rounds).2, _
    rw [hfx]
    refine List.forall_mem_append.2 ⟨asksStep_of_silent f hs, ?_⟩
    unfold sendToClients
    split
    · simp
    · intro e he w
      rcases sendLoop_cases _ _ _ _ e he with ⟨g, bs, rfl⟩ | ⟨g, rfl⟩ <;> rfl

theorem asked_packet (f : RawFd) (tr : List Effect) (d : SessionDaemon) {i : Nat} {x : Client} (p : PacketAns)
    (hi : d.clients[i]? = some x) :
    asked f (tr ++ (d.act (.packet i p)).2) = if x.fd = f then askedBy (asked f tr) p.res else asked f tr := by
  obtain ⟨fx, hfx, hv⟩ := visit_spec d p hi
  have hstill : ∀ e ∈ fx, ∀ w, asksStep f w e = w := by
    rcases hfx with ⟨hs, -⟩ | rfl
    · exact asksStep_of_silent f (silent_of_plain hs)
    · exact fun e he w => by rw [List.mem_singleton.1 he]; rfl
  rw [asked_append, act_packet d p hi, hv]
  cases x.next d.scrollback p with
  | some x' => exact foldl_asksStep_still _ hstill
  | none =>
    exact foldl_asksStep_still _ (List.forall_mem_append.2 ⟨hstill, fun e he w => by rw [List.mem_singleton.1 he]; rfl⟩)

theorem asked_accept (f : RawFd) (tr : List Effect) (d : SessionDaemon) (fd : RawFd) (nb : Bool) (cred : Option Nat)
    (took : Nat) :
    asked f (tr ++ (d.act (.accept (.conn fd nb cred) took)).2) = if fd = f then false else asked f tr := by
  rcases acceptClient_fx d (.conn fd nb cred) took with h | ⟨fd', nb', cred', fx, hr, h, hs⟩
  · cases nb <;> cases h
  · obtain ⟨rfl, rfl, rfl⟩ := AcceptRet.conn.inj hr
    show asked f (tr ++ (d.acceptClient (.conn fd nb cred) took).2) = _
    rw [h, asked_append, List.foldl_cons]
    exact foldl_asksStep_still _ (asksStep_of_silent f hs)

theorem next_asked {r : Ring} {p : PacketAns} {c c' : Client} (hn : c.next r p = some c') {w : Bool}
    (hc : w = true → c.replayRemaining = 0 → c.attached = true) (hask : askedBy w p.res = true)
    (hzero : c'.replayRemaining = 0) : c'.attached = true := by
  by_cases hp : ∃ pkt, p.Brings .attach pkt
  · obtain ⟨pkt, hp⟩ := hp
    rw [Client.next_attach hp] at hn
    obtain rfl := Option.some.inj hn
    by_cases hat : Client.atOnce r pkt = true
    · rw [if_pos hat]
    · rw [if_neg hat] at hzero ⊢
      exact c.drained_attached r.head_lt hzero
  · have hno : ∀ pkt, ¬ p.Brings .attach pkt := fun pkt h => hp ⟨pkt, h⟩
    rcases Client.next_of_not_attach hno hn with rfl | ⟨rfl, pkt, hd⟩
    · refine hc ?_ hzero
      unfold askedBy at hask
      split at hask
      · rename_i pkt hres
        split at hask
        · rename_i ht
          exact absurd ⟨hres, ht⟩ (hno pkt)
        · cases hask
        · exact hask
      · exact hask
    · rw [hd.1] at hask
      simp [askedBy, hd.2] at hask

/-- **In a reachable state a client that has asked for the session and has no replay pending is attached.** -/
theorem Reachable.asked_attached {d : SessionDaemon} {tr : List Effect} (hd : Reachable d tr) :
    ∀ c ∈ d.clients, asked c.fd tr = true → c.replayRemaining = 0 → c.attached = true := by
  induction hd with
  | new log s g h => exact fun c hc => by cases hc
  | @step d tr a hd ha ih =>
    intro c' hc' hask hzero
    cases a with
    | poll =>
      rw [asked_still _ _ _ (by simp) (by simp)] at hask
      exact ih c' hc' hask hzero
    | evict =>
      rw [asked_still _ _ _ (by simp) (by simp)] at hask
      cases act_from hc' with
      | kept hc => exact ih c' hc hask hzero
    | output data took rounds =>
      rw [asked_still _ _ _ (by simp) (by simp)] at hask
      cases act_from hc' with
      | kept hc => exact ih c' hc hask hzero
    | drain wfds ans =>
      rw [asked_still _ _ _ (by simp) (by simp)] at hask
      obtain ⟨c, hc, rfl⟩ := List.mem_map.1 hc'
      rw [drainClient_fd] at hask
      exact (drainClient_spec d.scrollback wfds ans (hd.cursor_lt c hc)).2 (ih c hc hask) hzero
    | accept r took =>
      cases act_from hc' with
      | kept hc =>
        refine ih c' hc ?_ hzero
        rcases r with ⟨fd, nb, cred⟩ | e
        · rwa [asked_accept, if_neg (fun hf => ha.1 (by rw [hf]; exact List.mem_map.2 ⟨c', hc, rfl⟩))] at hask
        · rwa [show (d.act (.accept (.fail e) took)).2 = [] from rfl, List.append_nil] at hask
      | accepted =>
        rw [asked_accept, if_pos rfl] at hask
        cases hask
    | packet i p =>
      cases hi : d.clients[i]? with
      | none =>
        rw [act_packet_none d p hi] at hask hc'
        rw [List.append_nil] at hask
        exact ih c' hc' hask hzero
      | some x =>
        have hmem : x ∈ d.clients := List.mem_of_getElem? hi
        rw [asked_packet _ _ d p hi] at hask
        by_cases hx : x.fd = c'.fd
        · have hself := packet_clientsAt_self p hi (nodup_clientsAt hd.nodup hi)
          have hin : c' ∈ clientsAt (d.act (.packet i p)).1.clients x.fd := mem_clientsAt.2 ⟨hc', hx.symm⟩
          rw [hself, Option.mem_toList] at hin
          rw [if_pos hx, ← hx] at hask
          exact next_asked hin (ih x hmem) hask hzero
        · have hin : c' ∈ clientsAt (d.act (.packet i p)).1.clients c'.fd := mem_clientsAt.2 ⟨hc', rfl⟩
          have hold := (mem_clientsAt.1 ((packet_clientsAt_other p hi hx).mem_iff.1 hin)).1
          rw [if_neg hx] at hask
          exact ih c' hold hask hzero

/-! ## The eviction -/

theorem Reachable.batch {d : SessionDaemon} {tr : List Effect} (hd : Reachable d tr) (rfds : FdSet)
    (ans : RawFd → PacketAns) :
    Reachable (d.handleClientPackets rfds ans).1 (tr ++ (d.handleClientPackets rfds ans).2) := by
  obtain ⟨as, hpkts, hrun⟩ := packetLoop_eq_run rfds ans d.clients.length 0 d
  have h := hd.of_run (along_possible_of_packets hpkts d)
  rwa [← hrun] at h

theorem afterBatch_fd {r : Ring} {rfds : FdSet} {ans : RawFd → PacketAns} {c c' : Client}
    (h : afterBatch r rfds ans c = some c') : c'.fd = c.fd := by
  unfold afterBatch at h
  split at h
  · exact Client.next_fd h
  · obtain rfl := Option.some.inj h
    rfl

theorem batch_clientsAt {d : SessionDaemon} {tr : List Effect} (hd : Reachable d tr) (rfds : FdSet)
    (ans : RawFd → PacketAns) {c : Client} (hc : c ∈ d.clients) : clientsAt (d.handleClientPackets rfds ans).1.clients c.fd =
      (afterBatch d.scrollback rfds ans c).toList := by
  have hperm := (handleClientPackets_spec d rfds ans).clients
  rw [List.nil_append] at hperm
  cases ha : afterBatch d.scrollback rfds ans c with
  | some c' =>
    have hmem := hperm.mem_iff.2 (List.mem_filterMap.2 ⟨c, hc, ha⟩)
    have := clientsAt_of_nodup (hd.batch rfds ans).nodup hmem
    rwa [afterBatch_fd ha] at this
  | none =>
    refine List.filter_eq_nil_iff.2 (fun y hy hyf => ?_)
    obtain ⟨c₀, hc₀, hy'⟩ := List.mem_filterMap.1 (hperm.mem_iff.1 hy)
    have hfd : c₀.fd = c.fd := by
      rw [← afterBatch_fd hy']
      simpa using hyf
    obtain rfl := eq_of_clientsAt (clientsAt_of_nodup hd.nodup hc) hc₀ hfd
    rw [ha] at hy'
    cases hy'

theorem batch_read {d : SessionDaemon} {rfds : FdSet} {ans : RawFd → PacketAns} {f : RawFd}
    {res : Except ProtocolError Packet} (h : (f, res) ∈ readsOf (d.handleClientPackets rfds ans).2) :
    ∃ c ∈ d.clients, c.fd = f ∧ c.fd ∈ rfds ∧ (ans c.fd).res = res := by
  obtain ⟨c, hc, hread⟩ := List.mem_filterMap.1 ((handleClientPackets_spec d rfds ans).reads.mem_iff.1 h)
  unfold readBy at hread
  split at hread
  · rename_i hin
    obtain ⟨h1, h2⟩ := Prod.mk.inj (Option.some.inj hread)
    exact ⟨c, hc, h1, hin, h2⟩
  · cases hread

/-- What a ForceDetach from `f` promises, after the batch it came in and the eviction: who has asked for the session is
gone, the connection it came from is gone, and everyone else is as its own packet, if any, left it. -/
structure ForceDetached (d : SessionDaemon) (tr : List Effect) (rfds : FdSet) (ans : RawFd → PacketAns) (f : RawFd) :
    Prop where
  asked_gone : ∀ c ∈ d.clients, asked c.fd (tr ++ (d.handleClientPackets rfds ans).2) = true →
    c.fd ∉ (d.handleClientPackets rfds ans).1.evict.1.clients.map (·.fd) ∧
    Effect.closed c.fd ∈ (d.handleClientPackets rfds ans).2 ++ (d.handleClientPackets rfds ans).1.evict.2
  control_gone : f ∉ (d.handleClientPackets rfds ans).1.evict.1.clients.map (·.fd) ∧
    Effect.closed f ∈ (d.handleClientPackets rfds ans).2 ++ (d.handleClientPackets rfds ans).1.evict.2
  others_stay : ∀ c ∈ d.clients, asked c.fd (tr ++ (d.handleClientPackets rfds ans).2) = false →
    clientsAt (d.handleClientPackets rfds ans).1.evict.1.clients c.fd = (afterBatch d.scrollback rfds ans c).toList

/-- A client between the states: it has asked for the session and waits for its replay unattached, or it has not asked,
or has left again, and is attached. -/
def Between (w : Bool) (c : Client) : Prop :=
  if w = true then 0 < c.replayRemaining ∧ c.attached = false else c.attached = true

instance (w : Bool) (c : Client) : Decidable (Between w c) :=
  inferInstanceAs (Decidable (if w = true then 0 < c.replayRemaining ∧ c.attached = false else c.attached = true))

/-- What it takes that a read does not leave its client between the states: an Attach is answered at once, or comes from a
client that is attached, or its socket takes the whole scrollback; a Detach, and what closes the client, ask for nothing;
anything else must find the client in one of its states. -/
def Settling (r : Ring) (w : Bool) (c : Client) (ws : List WriteRet) : Except ProtocolError Packet → Prop
  | .ok pkt =>
    if MsgType.fromU8 pkt.msgType = some .attach then
      Client.atOnce r pkt = true ∨ c.attached = true ∨ LetsThrough r.head r.len ws
    else MsgType.fromU8 pkt.msgType ∉ [some .detach, some .forceDetach, some .info] → ¬ Between w c
  | .error e => e = .wouldBlock → ¬ Between w c

instance (r : Ring) (w : Bool) (c : Client) (ws : List WriteRet) (res : Except ProtocolError Packet) :
    Decidable (Settling r w c ws res) :=
  match res with
  | .ok pkt => inferInstanceAs (Decidable (if MsgType.fromU8 pkt.msgType = some .attach then
      Client.atOnce r pkt = true ∨ c.attached = true ∨ LetsThrough r.head r.len ws
    else MsgType.fromU8 pkt.msgType ∉ [some .detach, some .forceDetach, some .info] → ¬ Between w c))
  | .error e => inferInstanceAs (Decidable (e = .wouldBlock → ¬ Between w c))

/-- The batch leaves no client between the states, by what it finds each client in and brings it. -/
def Settled (d : SessionDaemon) (tr : List Effect) (rfds : FdSet) (ans : RawFd → PacketAns) : Prop :=
  ∀ c ∈ d.clients, if c.fd ∈ rfds then Settling d.scrollback (asked c.fd tr) c (ans c.fd).writes (ans c.fd).res
    else ¬ Between (asked c.fd tr) c

instance (d : SessionDaemon) (tr : List Effect) (rfds : FdSet) (ans : RawFd → PacketAns) :
    Decidable (Settled d tr rfds ans) :=
  inferInstanceAs (Decidable (∀ c ∈ d.clients,
    if c.fd ∈ rfds then Settling d.scrollback (asked c.fd tr) c (ans c.fd).writes (ans c.fd).res
    else ¬ Between (asked c.fd tr) c))

theorem drained_between_iff (c : Client) (o : DrainOut) :
    ¬ Between true (c.drained o) ↔ c.attached = true ∨ o.rs.remaining = 0 := by
  by_cases hzero : o.rs.remaining = 0
  · simp [Between, Client.drained, hzero]
  · simp [Between, Client.drained, hzero, Nat.pos_iff_ne_zero]

/-- **One read** leaves its client between the states exactly when it takes more than the read brings. -/
theorem next_between_iff (r : Ring) (w : Bool) (p : PacketAns) (c : Client) :
    (∀ c', c.next r p = some c' → ¬ Between (askedBy w p.res) c') ↔ Settling r w c p.writes p.res := by
  unfold Client.next askedBy Settling
  cases p.res with
  | error e => cases e <;> simp
  | ok pkt =>
    simp only
    cases MsgType.fromU8 pkt.msgType with
    | none => simp
    | some t =>
      cases t with
      | attach =>
        have hdrain := drained_between_iff c (Client.firstDrain r p.writes)
        rw [Client.firstDrain, drain_all_iff] at hdrain
        cases Client.atOnce r pkt with
        | true => simp [Between]
        | false => simpa [Client.firstDrain] using hdrain
      | detach => simp [Between]
      | _ => simp

theorem asked_packets (f : RawFd) : ∀ {as : List Act}, (∀ a ∈ as, ∃ i p, a = .packet i p) → ∀ (d : SessionDaemon)
    (tr : List Effect), asked f (tr ++ (run act d as).2) =
      ((readsOf (run act d as).2).filter (·.1 = f)).foldl (fun w x => askedBy w x.2) (asked f tr)
  | [], _, d, tr => by rw [Machine.run_nil, List.append_nil]; rfl
  | a :: as, h, d, tr => by
    obtain ⟨i, p, rfl⟩ := h a List.mem_cons_self
    have ih := asked_packets f (fun b hb => h b (List.mem_cons_of_mem _ hb)) (d.act (.packet i p)).1
      (tr ++ (d.act (.packet i p)).2)
    rw [Machine.run_cons, ← List.append_assoc, ih, readsOf_append, List.filter_append, List.foldl_append]
    congr 1
    cases hi : d.clients[i]? with
    | none => rw [act_packet_none d p hi, List.append_nil]; rfl
    | some x =>
      rw [asked_packet f tr d p hi, packet_reads d p hi]
      split <;> simp [*]

theorem evict_absent {d : SessionDaemon} {f : RawFd} (h : clientsAt d.clients f = []) :
    clientsAt d.evict.1.clients f = [] := by
  unfold evict
  split
  · exact List.filter_eq_nil_iff.2 (fun c hc => List.filter_eq_nil_iff.1 h c (List.mem_filter.1 hc).1)
  · exact h

/-- **The eviction and one client**: it is closed and removed, or kept as it is. -/
theorem evict_one {d : SessionDaemon} (he : d.evictAttached = true) {c : Client} (h : clientsAt d.clients c.fd = [c]) :
    (c.attached = true → c.fd ∉ d.evict.1.clients.map (·.fd) ∧ Effect.closed c.fd ∈ d.evict.2) ∧
    (c.attached = false → clientsAt d.evict.1.clients c.fd = [c]) := by
  have hev : clientsAt d.evict.1.clients c.fd = if d.evictAttached = true ∧ c.attached = true then [] else [c] :=
    evict_clientsAt h
  refine ⟨fun ha => ⟨?_, ?_⟩, fun ha => ?_⟩
  · rw [if_pos ⟨he, ha⟩] at hev
    exact not_mem_fds_of_clientsAt hev
  · rw [evict, if_pos he]
    exact List.mem_map.2 ⟨c, List.mem_filter.2 ⟨(fd_of_clientsAt h).1, ha⟩, rfl⟩
  · rwa [if_neg (fun hb => by rw [ha] at hb; cases hb.2)] at hev

section
variable {d : SessionDaemon} {tr : List Effect} (hd : Reachable d tr) (rfds : FdSet) (ans : RawFd → PacketAns)

include hd

/-- A client the batch has removed. -/
theorem batch_removed {c : Client} (hc : c ∈ d.clients) (ha : afterBatch d.scrollback rfds ans c = none) :
    clientsAt (d.handleClientPackets rfds ans).1.evict.1.clients c.fd = [] ∧
    Effect.closed c.fd ∈ (d.handleClientPackets rfds ans).2 ++ (d.handleClientPackets rfds ans).1.evict.2 := by
  have h := batch_clientsAt hd rfds ans hc
  rw [ha] at h
  exact ⟨evict_absent h, List.mem_append_left _ ((handleClientPackets_spec d rfds ans).closed c hc ha)⟩

/-- Whether a client has asked for the session, after the batch. -/
theorem asked_batch {c : Client} (hc : c ∈ d.clients) : asked c.fd (tr ++ (d.handleClientPackets rfds ans).2) =
    if c.fd ∈ rfds then askedBy (asked c.fd tr) (ans c.fd).res else asked c.fd tr := by
  obtain ⟨as, hpkts, hrun⟩ := packetLoop_eq_run rfds ans d.clients.length 0 d
  have hown : (d.clients.filterMap (readBy rfds ans)).filter (·.1 = c.fd) = (readBy rfds ans c).toList := by
    have hat : d.clients.filter (·.fd = c.fd) = [c] := clientsAt_of_nodup hd.nodup hc
    have hby : (fun x => (readBy rfds ans x).filter (·.1 = c.fd)) =
        fun x => if x.fd = c.fd then readBy rfds ans x else none := by
      funext x
      unfold readBy
      by_cases hx : x.fd = c.fd <;> split <;> simp [hx]
    rw [List.filter_filterMap, hby]
    have := List.filterMap_filter (l := d.clients) (p := fun x => x.fd = c.fd) (f := readBy rfds ans)
    simp only [decide_eq_true_eq] at this
    rw [← this, hat]
    rfl
  have hreads : ((readsOf (d.handleClientPackets rfds ans).2).filter (·.1 = c.fd)) = (readBy rfds ans c).toList := by
    have hperm := (handleClientPackets_spec d rfds ans).reads.filter (·.1 = c.fd)
    rw [hown] at hperm
    cases hr : readBy rfds ans c with
    | none => rw [hr] at hperm; exact hperm.eq_nil
    | some x => rw [hr] at hperm; exact hperm.eq_singleton
  have hbatch : d.handleClientPackets rfds ans = run act d as := hrun
  rw [hbatch, asked_packets c.fd hpkts, ← hbatch, hreads, readBy]
  split <;> rfl

/-- **The promise to one client** is kept exactly when the batch does not leave it between the states. -/
theorem batch_evicts_iff (hflag : (d.handleClientPackets rfds ans).1.evictAttached = true) {c : Client}
    (hc : c ∈ d.clients) :
    ((asked c.fd (tr ++ (d.handleClientPackets rfds ans).2) = true →
        c.fd ∉ (d.handleClientPackets rfds ans).1.evict.1.clients.map (·.fd) ∧
        Effect.closed c.fd ∈ (d.handleClientPackets rfds ans).2 ++ (d.handleClientPackets rfds ans).1.evict.2) ∧
      (asked c.fd (tr ++ (d.handleClientPackets rfds ans).2) = false →
        clientsAt (d.handleClientPackets rfds ans).1.evict.1.clients c.fd = (afterBatch d.scrollback rfds ans c).toList)) ↔
    ∀ c', afterBatch d.scrollback rfds ans c = some c' →
      ¬ Between (asked c.fd (tr ++ (d.handleClientPackets rfds ans).2)) c' := by
  have hat := batch_clientsAt hd rfds ans hc
  have hsettled := (hd.batch rfds ans).asked_attached
  cases ha : afterBatch d.scrollback rfds ans c with
  | none =>
    obtain ⟨hgone, hclosed⟩ := batch_removed hd rfds ans hc ha
    exact ⟨fun _ c' hc' => (by cases hc'), fun _ => ⟨fun _ => ⟨not_mem_fds_of_clientsAt hgone, hclosed⟩, fun _ => hgone⟩⟩
  | some c' =>
    rw [ha] at hat
    obtain ⟨hmem, hfd⟩ := fd_of_clientsAt hat
    rw [← hfd] at hat ⊢
    obtain ⟨hgo, hstay⟩ := evict_one hflag hat
    have hdone := hsettled c' hmem
    generalize d.handleClientPackets rfds ans = b at *
    cases hask : asked c'.fd (tr ++ b.2) with
    | true =>
      -- it has to go: the eviction takes it if it is attached, and it is, unless its replay is pending
      simp only [Option.some.injEq, forall_eq', Between, if_true, true_implies, Bool.true_eq_false, false_implies, and_true]
      constructor
      · rintro hgone ⟨-, hno⟩
        exact hgone.1 (List.mem_map.2 ⟨c', fd_of_clientsAt (hstay hno)⟩)
      · intro hnot
        have hatt : c'.attached = true := by
          rcases Nat.eq_zero_or_pos c'.replayRemaining with hzero | hpos
          · exact hdone hask hzero
          · exact Bool.of_not_eq_false (fun hno => hnot ⟨hpos, hno⟩)
        exact ⟨(hgo hatt).1, List.mem_append_right _ (hgo hatt).2⟩
    | false =>
      -- it has to stay as it is, and it does unless it is attached
      simp only [Option.some.injEq, forall_eq', Between, Bool.false_eq_true, if_false, false_implies, true_implies, true_and]
      constructor
      · intro hother hyes
        exact (hgo hyes).1 (List.mem_map.2 ⟨c', fd_of_clientsAt hother⟩)
      · exact fun hno => hstay (Bool.eq_false_iff.2 hno)

/-- The same, by what the batch finds the client in and brings it. -/
theorem batch_between_iff {c : Client} (hc : c ∈ d.clients) :
    (∀ c', afterBatch d.scrollback rfds ans c = some c' →
      ¬ Between (asked c.fd (tr ++ (d.handleClientPackets rfds ans).2)) c') ↔
    if c.fd ∈ rfds then Settling d.scrollback (asked c.fd tr) c (ans c.fd).writes (ans c.fd).res
    else ¬ Between (asked c.fd tr) c := by
  rw [asked_batch hd rfds ans hc, afterBatch]
  split
  · exact next_between_iff d.scrollback (asked c.fd tr) (ans c.fd) c
  · exact ⟨fun h => h c rfl, fun h c' hc' => Option.some.inj hc' ▸ h⟩

end

/-- **A ForceDetach, in every reachable state and every batch**: right after the eviction it has done what it promises
exactly when the batch leaves no client between the states. -/
theorem forceDetach_iff {d : SessionDaemon} {tr : List Effect} (hd : Reachable d tr) {rfds : FdSet}
    {ans : RawFd → PacketAns} {f : RawFd} {pkt : Packet} (hread : (f, .ok pkt) ∈ readsOf (d.handleClientPackets rfds ans).2)
    (hforce : MsgType.fromU8 pkt.msgType = some .forceDetach) :
    ForceDetached d tr rfds ans f ↔ Settled d tr rfds ans := by
  have hspec := handleClientPackets_spec d rfds ans
  obtain ⟨cf, hcf, rfl, hin, hres⟩ := batch_read hread
  have hgone : afterBatch d.scrollback rfds ans cf = none := by
    rw [afterBatch, if_pos hin]
    simp only [Client.next, hres, hforce]
  have hflag : (d.handleClientPackets rfds ans).1.evictAttached = true :=
    hspec.evict.2 (.inr ⟨cf, hcf, hin, by simp only [PacketAns.forces, hres, hforce, decide_true]⟩)
  have hone := fun c hc => (batch_evicts_iff hd rfds ans hflag hc).trans (batch_between_iff hd rfds ans (c := c) hc)
  constructor
  · intro h c hc
    exact (hone c hc).1 ⟨h.asked_gone c hc, h.others_stay c hc⟩
  · intro h
    obtain ⟨hcontrol, hclosed⟩ := batch_removed hd rfds ans hcf hgone
    exact ⟨fun c hc => ((hone c hc).2 (h c hc)).1, ⟨not_mem_fds_of_clientsAt hcontrol, hclosed⟩,
      fun c hc => ((hone c hc).2 (h c hc)).2⟩

def controlConnects : Act := .accept (.conn 7 true none) 0

def forces : RawFd → PacketAns := fun _ => .whole (Packet.new .forceDetach) []

theorem bothAttach_forceDetach :
    ForceDetached (run act fresh (bothAttach ++ [controlConnects])).1 (run act fresh (bothAttach ++ [controlConnects])).2
      [7] forces 7 := by
  have hread : (7, .ok (Packet.new .forceDetach)) ∈
      readsOf ((run act fresh (bothAttach ++ [controlConnects])).1.handleClientPackets [7] forces).2 := by decide +kernel
  have hsettled : Settled (run act fresh (bothAttach ++ [controlConnects])).1
      (run act fresh (bothAttach ++ [controlConnects])).2 [7] forces := by
    decide +kernel
  exact (forceDetach_iff (fresh_reachable.of_run (by decide +kernel)) hread (by decide)).2 hsettled

/-- A client whose replay is pending stays. -/
theorem forceDetach_misses_replaying : ¬ ∀ (as : List Act) (rfds : FdSet) (ans : RawFd → PacketAns) (f : RawFd)
    (pkt : Packet), Along act Possible fresh as →
    (f, .ok pkt) ∈ readsOf ((run act fresh as).1.handleClientPackets rfds ans).2 →
    MsgType.fromU8 pkt.msgType = some .forceDetach →
    ForceDetached (run act fresh as).1 (run act fresh as).2 rfds ans f := by
  intro h
  have hforced := h (partlyReplayed ++ [controlConnects]) [7] forces 7 (Packet.new .forceDetach) (by decide +kernel)
    (by decide +kernel) (by decide)
  refine (hforced.asked_gone ⟨5, false, 1, 2, 0⟩ (by decide +kernel) (by decide +kernel)).1 ?_
  decide +kernel

end SessionDaemon

end Zatch
