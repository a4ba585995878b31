import Zatch.AttachTalk
/-!
# AttachTyped — what an attached client sends of what is typed (`event_loop`, `handle_stdin_data`)

Of what is typed at it a client passes on every read that does not begin with one of its keys, whole and in order: the data
of the Push packets sent, and of the one about to be sent, are that (`typed_is_sent`).
-/
namespace Zatch

open Machine

/-- What a read of the standard input passes on: nothing, when it begins with a key. -/
def ClientKeys.passes (k : ClientKeys) : List Byte → List Byte
  | [] => []
  | b :: bs => if k.key b = none then b :: bs else []

/-- With the detach key and the suspend key disabled, everything is passed on. -/
theorem ClientKeys.passes_of_disabled {k : ClientKeys} (hs : k.noSuspend = true) (hd : k.detachChar < 0) (bs : List Byte) :
    k.passes bs = bs := by
  cases bs with
  | nil => rfl
  | cons b bs =>
    have hkey : k.key b = none := by
      rw [key, if_neg (by simp [hs]), if_neg (by omega)]
    rw [passes, if_pos hkey]

/-- What a packet types. -/
def Packet.pushes (pkt : Packet) : List Byte := if pkt.msgType = MsgType.push.toU8 then pkt.data.take pkt.len.toNat else []

theorem Packet.pushes_push {bs : List Byte} (h : bs.length ≤ 8) : (Packet.push bs).pushes = bs := pushed_push h

theorem Packet.pushes_sized (pkt : Packet) (winsize : List Byte) : (pkt.sized winsize).pushes = pkt.pushes := by
  unfold sized
  split
  · rename_i h
    have hne : pkt.msgType ≠ MsgType.push.toU8 := by
      rw [h]
      decide
    rw [pushes, pushes, if_neg hne]
    rfl
  · rfl

def Seen.keyedOf (k : ClientKeys) : Seen → List Byte
  | .keyed bs => k.passes bs
  | _ => []

/-- What has been typed that is to be passed on. -/
def passedBytes (k : ClientKeys) (out : List Seen) : List Byte := out.flatMap (Seen.keyedOf k)

/-- What the Push packets sent have carried. -/
def pushedBytes (out : List Seen) : List Byte := (out.filterMap Seen.packet).flatMap Packet.pushes

/-- What an operation still has to push. -/
def Op.pushes : Op → List Byte
  | .send pkt | .request pkt _ => pkt.pushes
  | _ => []

theorem passedBytes_append (k : ClientKeys) (out out' : List Seen) :
    passedBytes k (out ++ out') = passedBytes k out ++ passedBytes k out' := List.flatMap_append

theorem pushedBytes_append (out out' : List Seen) : pushedBytes (out ++ out') = pushedBytes out ++ pushedBytes out' := by
  rw [pushedBytes, List.filterMap_append, List.flatMap_append]
  rfl

def readsEightAt (p : Proc) : ProcEv → Bool
  | .go a =>
    match p.todo with
    | .stdin :: _ => Nat.ble (gotten a.stdin).length 8
    | _ => true
  | _ => true

/-- A read of the standard input gets at most the eight bytes it asks for. -/
def ReadsEight (p : Proc) (ev : ProcEv) : Prop := readsEightAt p ev = true

instance (p : Proc) (ev : ProcEv) : Decidable (ReadsEight p ev) := instDecidableEqBool _ _

/-- Nothing is pushed after an operation of the loop. -/
def PushesFirst : List Op → Prop
  | [] => True
  | op :: ops => (op.ofLoop = true → ops.flatMap Op.pushes = []) ∧ PushesFirst ops

theorem pushesFirst_append {ops : List Op} : ∀ (pre : List Op), (∀ op ∈ pre, op.ofLoop = false) →
    (PushesFirst (pre ++ ops) ↔ PushesFirst ops)
  | [], _ => Iff.rfl
  | op :: pre, h => by
    have hop := h op List.mem_cons_self
    rw [List.cons_append, PushesFirst, pushesFirst_append pre (fun x hx => h x (List.mem_cons_of_mem _ hx)), hop]
    simp

theorem pushesFirst_of_nil : ∀ {ops : List Op}, ops.flatMap Op.pushes = [] → PushesFirst ops
  | [], _ => trivial
  | op :: ops, h => by
    rw [List.flatMap_cons, List.append_eq_nil_iff] at h
    exact ⟨fun _ => h.2, pushesFirst_of_nil h.2⟩

/-- **What a read of the standard input leads to** is a push of what it passes on, and no operation of the loop. -/
theorem handleStdinData_pushes (c : Attaching) (a : StdinAns) (h : (gotten a.read).length ≤ 8) :
    ((handleStdinData c.keys a).flatMap (StdinAct.ops c)).flatMap Op.pushes = c.keys.passes (gotten a.read) ∧
      ∀ op ∈ (handleStdinData c.keys a).flatMap (StdinAct.ops c), op.ofLoop = false := by
  have hdetach : ∀ pkt : Packet, Packet.pushes { pkt with msgType := MsgType.detach.toU8 } = [] := fun _ => rfl
  have hattach : (Packet.new .attach).pushes = [] := rfl
  have hredraw : (Packet.withData .redraw c.keys.redrawMethod.toU8 a.winsize).pushes = [] := rfl
  unfold handleStdinData
  split
  · rename_i hr
    rw [hr]
    simp [StdinAct.ops, restoreAndExit, Op.pushes, Op.ofLoop, gotten, ClientKeys.passes]
  · rename_i hr
    rw [hr]
    simp [gotten, ClientKeys.passes]
  · rename_i hr
    rw [hr]
    simp [StdinAct.ops, restoreAndExit, Op.pushes, Op.ofLoop, gotten, ClientKeys.passes]
  · rename_i b bs hr
    rw [hr] at h ⊢
    have hpush : (Packet.push (b :: bs)).pushes = b :: bs := Packet.pushes_push h
    simp only [gotten, ClientKeys.passes, ClientKeys.key]
    split
    · simp [StdinAct.ops, Op.pushes, Op.ofLoop, hdetach, hattach, hredraw]
    · split
      · simp [StdinAct.ops, restoreAndExit, Op.pushes, Op.ofLoop]
      · split <;> simp [StdinAct.ops, Op.pushes, Op.ofLoop, hpush]

/-- Only a read of the standard input leads to something to push. -/
theorem opens_pushes {c : Attaching} {p : Proc} {a : OpAns} {op : Op} (h : op ≠ .stdin) :
    (p.opens c a op).flatMap Op.pushes = [] := by
  have hwinch : (Packet.withData .winch 0 a.winsize).pushes = [] := rfl
  cases op with
  | stdin => exact absurd rfl h
  | check =>
    simp only [Proc.opens]
    split <;> rfl
  | select =>
    simp only [Proc.opens]
    unfold selectOps
    split
    · rfl
    · rfl
    · split <;> split <;> rfl
  | server =>
    simp only [Proc.opens]
    unfold handleServerData
    split
    · split <;> rfl
    · rfl
    · rfl
    · rfl
  | request pkt what =>
    simp only [Proc.opens]
    split
    · rfl
    · unfold failedRequest
      split <;> rfl
  | winch =>
    simp only [Proc.opens]
    split <;> rfl
  | getWinsize => simp [Proc.opens, Op.pushes, hwinch]
  | _ => rfl

/-- What an operation that is not of the loop leads to is not of the loop. -/
theorem opens_apart {c : Attaching} {p : Proc} {a : OpAns} {op : Op} (h : op.ofLoop = false) :
    ∀ x ∈ p.opens c a op, x.ofLoop = false := by
  cases op with
  | request pkt what =>
    simp only [Proc.opens]
    split
    · simp
    · unfold failedRequest
      split <;> simp [Op.ofLoop]
  | check | select | server | stdin | winch | getWinsize => cases h
  | _ => simp [Proc.opens]

/-- **What an operation pushes, and what it reads to be passed on.** -/
theorem perform_typed (c : Attaching) (p : Proc) (a : OpAns) (op : Op) :
    pushedBytes (p.perform c a op).2 = op.pushes ∧
      passedBytes c.keys (p.perform c a op).2 = if op = .stdin then c.keys.passes (gotten a.stdin) else [] := by
  cases op with
  | send pkt => simp [Proc.perform, pushedBytes, passedBytes, Seen.packet, Seen.keyedOf, Op.pushes, Packet.pushes_sized]
  | request pkt what =>
    simp [Proc.perform, pushedBytes, passedBytes, Seen.packet, Seen.keyedOf, Op.pushes, Packet.pushes_sized]
  | stdin => simp [Proc.perform, pushedBytes, passedBytes, Seen.packet, Seen.keyedOf, Op.pushes]
  | server =>
    simp only [Proc.perform]
    split <;> exact ⟨rfl, rfl⟩
  | print text =>
    simp only [Proc.perform]
    split <;> exact ⟨rfl, rfl⟩
  | winch =>
    simp only [Proc.perform]
    split <;> exact ⟨rfl, rfl⟩
  | _ => exact ⟨rfl, rfl⟩

/-- What is passed on has been pushed, is to be pushed next, or is lost with a client that has ended. -/
structure Types (k : ClientKeys) (p : Proc) (out : List Seen) : Prop where
  first : PushesFirst p.todo
  bytes : p.ending = none → passedBytes k out = pushedBytes out ++ p.todo.flatMap Op.pushes
  ended : pushedBytes out <+: passedBytes k out

theorem Types.perform {c : Attaching} {p : Proc} {out : List Seen} {a : OpAns} {op : Op} {ops : List Op}
    (h : Types c.keys p out) (hlive : p.ending = none) (htodo : p.todo = op :: ops)
    (hread : op = .stdin → (gotten a.stdin).length ≤ 8) :
    Types c.keys ({ p with todo := ops }.perform c a op).1 (out ++ ({ p with todo := ops }.perform c a op).2) := by
  obtain ⟨hfirst, hbytes, -⟩ := h
  replace hbytes := hbytes hlive
  rw [htodo] at hfirst
  rw [htodo, List.flatMap_cons] at hbytes
  obtain ⟨hpush, hpass⟩ := perform_typed c { p with todo := ops } a op
  have hopens : ({ p with todo := ops }.opens c a op).flatMap Op.pushes = if op = .stdin then c.keys.passes (gotten a.stdin) else [] := by
    by_cases hop : op = .stdin
    · subst hop
      rw [if_pos rfl]
      exact (handleStdinData_pushes c ⟨a.stdin, a.winsize, a.age⟩ (hread rfl)).1
    · rw [if_neg hop, opens_pushes hop]
  -- after an operation of the loop nothing is left to push, so what a read leads to comes first
  have hall : passedBytes c.keys (out ++ ({ p with todo := ops }.perform c a op).2) =
      pushedBytes (out ++ ({ p with todo := ops }.perform c a op).2) ++
        ({ p with todo := ops }.opens c a op ++ ops).flatMap Op.pushes := by
    rw [passedBytes_append, pushedBytes_append, hpass, hpush, hbytes, List.flatMap_append, hopens]
    by_cases hop : op = .stdin
    · subst hop
      rw [hfirst.1 rfl]
      simp [Op.pushes]
    · rw [if_neg hop]
      simp
  have hnext : PushesFirst ({ p with todo := ops }.opens c a op ++ ops) := by
    cases hloop : op.ofLoop with
    | false => exact (pushesFirst_append _ (opens_apart hloop)).2 hfirst.2
    | true =>
      by_cases hop : op = .stdin
      · subst hop
        exact (pushesFirst_append _ (handleStdinData_pushes c ⟨a.stdin, a.winsize, a.age⟩ (hread rfl)).2).2 hfirst.2
      · exact pushesFirst_of_nil (by rw [List.flatMap_append, opens_pushes hop, hfirst.1 hloop]; rfl)
  rcases Proc.perform_todo c { p with todo := ops } a op with ⟨hended, hnil⟩ | ⟨-, hrest⟩
  · refine ⟨by rw [hnil]; trivial, fun h' => ?_, ?_⟩
    · rw [h'] at hended
      cases hended
    · rw [hall]
      exact List.prefix_append _ _
  · refine ⟨by rw [hrest]; exact hnext, fun _ => by rw [hrest]; exact hall, ?_⟩
    rw [hall]
    exact List.prefix_append _ _

theorem Types.quiet {k : ClientKeys} {p p' : Proc} {out quiet : List Seen} (h : Types k p out) (htodo : p'.todo = p.todo)
    (hend : p'.ending = p.ending) (hpass : passedBytes k quiet = []) (hpush : pushedBytes quiet = []) :
    Types k p' (out ++ quiet) := by
  have hsame : passedBytes k (out ++ quiet) = passedBytes k out ∧ pushedBytes (out ++ quiet) = pushedBytes out := by
    rw [passedBytes_append, pushedBytes_append, hpass, hpush, List.append_nil, List.append_nil]
    exact ⟨rfl, rfl⟩
  refine ⟨by rw [htodo]; exact h.first, fun hlive => ?_, ?_⟩
  · rw [hsame.1, hsame.2, htodo]
    exact h.bytes (hend ▸ hlive)
  · rw [hsame.1, hsame.2]
    exact h.ended

theorem types_run (c : Attaching) (evs : List ProcEv) (h : Along (Proc.step c) ReadsEight (Proc.begin c) evs) :
    Types c.keys (run (Proc.step c) (Proc.begin c) evs).1 (run (Proc.step c) (Proc.begin c) evs).2 := by
  have hbegin : Types c.keys (Proc.begin c) [] := by
    have hnil : (Proc.begin c).todo.flatMap Op.pushes = [] := by
      simp only [Proc.begin, Proc.prologue]
      split
      · rfl
      · split <;> rfl
    exact ⟨pushesFirst_of_nil hnil, fun _ => by rw [hnil]; rfl, List.nil_prefix⟩
  show Types c.keys _ ([] ++ (run (Proc.step c) (Proc.begin c) evs).2)
  refine Along.history (R := Types c.keys) ?_ hbegin h
  intro p ev out hp hread
  obtain ⟨a, op, ops, rfl, -, hlive, htodo, heq⟩ | ⟨bs, -, heq⟩ | ⟨p', quiet, heq, hquiet, htodo, -, -, -, hend⟩ :=
    Proc.step_cases c p ev
  · rw [heq]
    apply hp.perform hlive htodo
    rintro rfl
    simp only [ReadsEight, readsEightAt, htodo] at hread
    exact Nat.le_of_ble_eq_true hread
  · rw [heq]
    exact hp.quiet rfl rfl rfl rfl
  · rw [heq]
    rcases hquiet with ⟨rfl, -⟩ | ⟨rfl, -⟩ <;> exact hp.quiet htodo hend rfl rfl

/-- In its loop the client has nothing left to push. -/
theorem Types.all_sent {k : ClientKeys} {p : Proc} {out : List Seen} {op : Op} {ops : List Op} (h : Types k p out)
    (hlive : p.ending = none) (htodo : p.todo = op :: ops) (hloop : op.ofLoop = true) : pushedBytes out = passedBytes k out := by
  have hfirst := h.first
  have hall := h.bytes hlive
  rw [htodo] at hfirst hall
  have hop : op.pushes = [] := by cases op <;> first | rfl | cases hloop
  rw [hall, List.flatMap_cons, hop, hfirst.1 hloop, List.append_nil, List.append_nil]

/-- Everything that has been typed. -/
def typedBytes (out : List Seen) : List Byte :=
  out.flatMap (fun | .keyed bs => bs | _ => [])

theorem passedBytes_of_disabled {k : ClientKeys} (hs : k.noSuspend = true) (hd : k.detachChar < 0) (out : List Seen) :
    passedBytes k out = typedBytes out := by
  unfold passedBytes typedBytes
  congr 1
  funext x
  cases x with
  | keyed bs => exact ClientKeys.passes_of_disabled hs hd bs
  | _ => rfl

/-- **What is typed is sent as it was typed**, whatever else the client does and whatever signals come: the data of the Push
packets are the reads that do not begin with a key, in their order, and the client never goes back to its loop before it has
sent what it has read; with its keys disabled that is everything. -/
theorem typed_is_sent (c : Attaching) (evs : List ProcEv) (h : Along (Proc.step c) ReadsEight (Proc.begin c) evs) :
    let r := run (Proc.step c) (Proc.begin c) evs
    pushedBytes r.2 <+: passedBytes c.keys r.2 ∧
      (∀ op ops, r.1.ending = none → r.1.todo = op :: ops → op.ofLoop = true →
        pushedBytes r.2 = passedBytes c.keys r.2) ∧
      (c.noSuspend = true → c.detachChar < 0 → passedBytes c.keys r.2 = typedBytes r.2) := by
  have htypes := types_run c evs h
  exact ⟨htypes.ended, fun _ _ hlive htodo hloop => htypes.all_sent hlive htodo hloop,
    fun hs hd => passedBytes_of_disabled hs hd _⟩

/-- Two reads are passed on, and one that begins with the suspend key is not; the window changes in between. -/
def typedAndSuspended : List ProcEv :=
  let go (bs : List Byte) : ProcEv := .go { plainAns with ready := .ok (false, true), stdin := .ok bs, stops := true }
  List.replicate 13 (go [104, 105]) ++ [.winch] ++ List.replicate 6 (go [26, 1]) ++ List.replicate 4 (go [26, 2]) ++
    [.cont] ++ List.replicate 12 (go [10])

theorem typed_is_sent_suspended :
    let r := run (Proc.step plainClient) (Proc.begin plainClient) typedAndSuspended
    typedBytes r.2 = [104, 105, 26, 1, 10] ∧ passedBytes plainClient.keys r.2 = [104, 105, 10] ∧
      pushedBytes r.2 <+: passedBytes plainClient.keys r.2 :=
  ⟨by decide +kernel, by decide +kernel, (typed_is_sent plainClient typedAndSuspended (by decide +kernel)).1⟩

end Zatch
