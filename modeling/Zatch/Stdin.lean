import Zatch.AppLog
import Zatch.Push
/-!
# Stdin — what is typed at an attached client (`handle_stdin_data`)

The client looks for its special keys in the first byte of a read only, and a read that begins with the suspend key is
dropped with all that is in it.  So what becomes of what is typed depends on how it comes in: it is the outcome of the
bytes one by one exactly when every special key comes first in its read, and a suspend key alone (`typed_iff_keysFirst`).
-/
namespace Zatch

theorem length_padded (bs : List Byte) : ((bs ++ List.replicate 8 0).take 8).length = 8 := by
  rw [List.length_take, List.length_append, List.length_replicate]
  exact Nat.min_eq_left (Nat.le_add_left 8 bs.length)

/-- A packet with data, padded with zeros. -/
def Packet.withData (t : MsgType) (len : Byte) (bs : List Byte) : Packet :=
  ⟨t.toU8, len, (bs ++ List.replicate 8 0).take 8, length_padded bs⟩

/-- What `handle_stdin_data` reads of the session's settings and of the terminal's. -/
structure ClientKeys where
  /-- `session_shortname` of the socket -/
  name : String
  progname : String
  noSuspend : Bool
  /-- negative when it is disabled -/
  detachChar : Int
  /-- `c_cc[VSUSP]` -/
  susp : Byte
  redrawMethod : RedrawMethod
deriving DecidableEq

/-- What the system answers one turn of `event_loop` in which the standard input is ready: the read of up to eight bytes,
the size of the window, and how long the session has been attached, as it is told. -/
structure StdinAns where
  read : Except Errno (List Byte)
  winsize : List Byte
  age : String

inductive StdinAct
  | recorded (level : LogLevel) (message : String)
  | printed (text : String)
  /-- `write_to` the daemon, its result dropped -/
  | send (pkt : Packet)
  /-- the terminal given back, a newline, `SIGTSTP` to itself, and the terminal taken again -/
  | suspended
  /-- `WIN_CHANGED` is set -/
  | winChanged
  /-- `restore_and_exit` -/
  | exited (status : Nat)
deriving DecidableEq

def handleStdinData (c : ClientKeys) (a : StdinAns) : List StdinAct :=
  match a.read with
  | .error (.other _) => [.recorded .error ("stdin read failed for session '" ++ c.name ++ "'"), .exited 1]
  | .error _ => []
  | .ok [] => [.recorded .info ("stdin closed for session '" ++ c.name ++ "'"), .exited 1]
  | .ok (b :: bs) =>
    let pkt := Packet.push (b :: bs)
    if c.noSuspend = false ∧ b = c.susp then
      [.send { pkt with msgType := MsgType.detach.toU8 }, .suspended, .send (Packet.new .attach),
        .send (Packet.withData .redraw c.redrawMethod.toU8 a.winsize)]
    else if c.detachChar ≥ 0 ∧ (b.toNat : Int) = c.detachChar then
      [.recorded .info ("session '" ++ c.name ++ "' detached after " ++ a.age),
        .printed ("\r\n[" ++ c.progname ++ ": session '" ++ c.name ++ "' detached after " ++ a.age ++ "]\r\n"),
        .exited 0]
    else if b = 0x0c then [.winChanged, .send pkt]
    else [.send pkt]

/-- The turn of `event_loop`, as far as the standard input goes: with `WIN_CHANGED` set, the size is sent after it. -/
def stdinTurn (c : ClientKeys) (a : StdinAns) : List StdinAct :=
  let acts := handleStdinData c a
  if .winChanged ∈ acts then acts ++ [.send (Packet.withData .winch 0 a.winsize)] else acts

/-! ## What is observed -/

/-- The bytes forwarded, and at which positions of the stream the client was suspended and detached. -/
structure Outcome where
  forwarded : List Byte
  suspensions : List Nat
  detached : Option Nat
deriving DecidableEq, Repr

/-- The data of a Push. -/
def StdinAct.pushed : StdinAct → List Byte
  | .send pkt => if pkt.msgType = MsgType.push.toU8 then pkt.data.take pkt.len.toNat else []
  | _ => []

def StdinAct.exits : StdinAct → Bool
  | .exited _ => true
  | _ => false

/-- What a turn adds to the outcome, its read beginning at this position, and what comes after it. -/
def observe (pos : Nat) (acts : List StdinAct) (after : Outcome) : Outcome where
  forwarded := acts.flatMap StdinAct.pushed ++ after.forwarded
  suspensions := (if .suspended ∈ acts then [pos] else []) ++ after.suspensions
  detached := if .exited 0 ∈ acts then some pos else after.detached

def readBytes (a : StdinAns) : List Byte :=
  match a.read with
  | .ok bs => bs
  | .error _ => []

/-- The turns of an attached client one after the other, until it exits. -/
def stdinRun (c : ClientKeys) : Nat → List StdinAns → Outcome
  | _, [] => ⟨[], [], none⟩
  | pos, a :: as =>
    let acts := stdinTurn c a
    observe pos acts (if acts.any StdinAct.exits then ⟨[], [], none⟩ else stdinRun c (pos + (readBytes a).length) as)

/-! ## What is typed, byte by byte -/

inductive Key
  | suspend
  | detach
deriving DecidableEq, Repr

/-- The special key a byte is. -/
def ClientKeys.key (c : ClientKeys) (b : Byte) : Option Key :=
  if c.noSuspend = false ∧ b = c.susp then some .suspend
  else if c.detachChar ≥ 0 ∧ (b.toNat : Int) = c.detachChar then some .detach
  else none

/-- The outcome when every byte is looked at. -/
def typed (c : ClientKeys) : Nat → List Byte → Outcome
  | _, [] => ⟨[], [], none⟩
  | pos, b :: bs =>
    match c.key b with
    | some .suspend => { typed c (pos + 1) bs with suspensions := pos :: (typed c (pos + 1) bs).suspensions }
    | some .detach => ⟨[], [], some pos⟩
    | none => { typed c (pos + 1) bs with forwarded := b :: (typed c (pos + 1) bs).forwarded }

/-- The outcome of a stream that comes in these reads. -/
def readRun (c : ClientKeys) : Nat → List (List Byte) → Outcome
  | _, [] => ⟨[], [], none⟩
  | pos, [] :: ps => readRun c pos ps
  | pos, (b :: bs) :: ps =>
    match c.key b with
    | some .suspend =>
      { readRun c (pos + (b :: bs).length) ps with
        suspensions := pos :: (readRun c (pos + (b :: bs).length) ps).suspensions }
    | some .detach => ⟨[], [], some pos⟩
    | none =>
      { readRun c (pos + (b :: bs).length) ps with
        forwarded := b :: bs ++ (readRun c (pos + (b :: bs).length) ps).forwarded }

/-- Up to the first detach key that begins a read, every special key begins its read, and a suspend key is all of it. -/
def keysFirst (c : ClientKeys) : List (List Byte) → Bool
  | [] => true
  | [] :: ps => keysFirst c ps
  | (b :: bs) :: ps =>
    match c.key b with
    | some .suspend => bs = [] && keysFirst c ps
    | some .detach => true
    | none => bs.all (fun x => c.key x = none) && keysFirst c ps

/-- Reads that bring this stream, one to eight bytes each; in between, a read may be interrupted or find nothing. -/
structure SplitOf (stream : List Byte) (as : List StdinAns) : Prop where
  read : ∀ a ∈ as, (∃ b bs, a.read = .ok (b :: bs) ∧ (b :: bs).length ≤ 8) ∨ a.read = .error .eintr ∨
    a.read = .error .eagain
  bytes : as.flatMap readBytes = stream

theorem pushed_push {bs : List Byte} (hle : bs.length ≤ 8) : StdinAct.pushed (.send (Packet.push bs)) = bs := by
  have hlen := SessionDaemon.len_push hle
  simp only [Packet.push] at hlen
  simp only [StdinAct.pushed, Packet.push, if_true, hlen]
  rw [List.take_take, Nat.min_eq_left hle, List.take_left]

/-- **A turn that reads something** does what the first byte says. -/
theorem observe_turn (c : ClientKeys) {a : StdinAns} {b : Byte} {bs : List Byte} (hr : a.read = .ok (b :: bs))
    (hle : (b :: bs).length ≤ 8) (pos : Nat) (after : Outcome) :
    observe pos (stdinTurn c a) (if (stdinTurn c a).any StdinAct.exits then ⟨[], [], none⟩ else after) =
      match c.key b with
      | some .suspend => { after with suspensions := pos :: after.suspensions }
      | some .detach => ⟨[], [], some pos⟩
      | none => { after with forwarded := b :: bs ++ after.forwarded } := by
  have hpush := pushed_push hle
  have hwinch : StdinAct.pushed (.send (Packet.withData .winch 0 a.winsize)) = [] := rfl
  have hnone : StdinAct.pushed .winChanged = [] := rfl
  unfold stdinTurn handleStdinData ClientKeys.key
  simp only [hr]
  split
  · simp [observe, StdinAct.pushed, StdinAct.exits, MsgType.toU8, Packet.new, Packet.encode, Packet.withData]
  · split
    · simp [observe, StdinAct.pushed, StdinAct.exits]
    · split
      · simp [observe, StdinAct.exits, hpush, hwinch, hnone]
      · simp [observe, StdinAct.exits, hpush]

/-- A turn in which nothing is read does nothing. -/
theorem stdinTurn_idle (c : ClientKeys) {a : StdinAns} (h : a.read = .error .eintr ∨ a.read = .error .eagain) :
    stdinTurn c a = [] := by
  unfold stdinTurn handleStdinData
  rcases h with hr | hr <;> simp [hr]

theorem stdinRun_eq (c : ClientKeys) : ∀ (as : List StdinAns) (pos : Nat) {stream : List Byte}, SplitOf stream as →
    stdinRun c pos as = readRun c pos (as.map readBytes)
  | [], _, _, _ => rfl
  | a :: as, pos, stream, h => by
    have htail : SplitOf (as.flatMap readBytes) as := ⟨fun a' ha' => h.read a' (List.mem_cons_of_mem _ ha'), rfl⟩
    rw [stdinRun, List.map_cons]
    rcases h.read a List.mem_cons_self with ⟨b, bs, hr, hle⟩ | hidle
    · have hbytes : readBytes a = b :: bs := by rw [readBytes, hr]
      rw [hbytes, readRun, stdinRun_eq c as _ htail]
      exact observe_turn c hr hle pos _
    · have hbytes : readBytes a = [] := by
        unfold readBytes
        rcases hidle with hr | hr <;> rw [hr]
      rw [hbytes, readRun, stdinTurn_idle c hidle, stdinRun_eq c as _ htail]
      rfl

/-! ## When every key counts -/

/-- Where the client was suspended or detached. -/
def Outcome.events (o : Outcome) : List Nat := o.suspensions ++ o.detached.toList

theorem mem_events {o : Outcome} {q : Nat} : q ∈ o.events ↔ q ∈ o.suspensions ∨ o.detached = some q := by
  rw [Outcome.events, List.mem_append, Option.mem_toList]

/-- Nothing happens before its position. -/
theorem readRun_events_ge (c : ClientKeys) : ∀ (ps : List (List Byte)) (pos q : Nat), q ∈ (readRun c pos ps).events → pos ≤ q
  | [], _, q, h => by simp [readRun, Outcome.events] at h
  | [] :: ps, pos, q, h => readRun_events_ge c ps pos q h
  | (b :: bs) :: ps, pos, q, h => by
    have ih := readRun_events_ge c ps (pos + (b :: bs).length) q
    rw [readRun] at h
    cases hk : c.key b with
    | none =>
      rw [hk] at h
      have := ih h
      omega
    | some k =>
      rw [hk] at h
      cases k with
      | suspend =>
        rcases List.mem_cons.1 h with rfl | h
        · exact Nat.le_refl _
        · have := ih h
          omega
      | detach =>
        simp only [Outcome.events, List.nil_append, Option.toList_some, List.mem_singleton] at h
        exact Nat.le_of_eq h.symm

/-- Bytes that are no special keys are forwarded. -/
theorem typed_plain (c : ClientKeys) (rest : List Byte) : ∀ (bs : List Byte) (pos : Nat), (∀ x ∈ bs, c.key x = none) →
    typed c pos (bs ++ rest) =
      { typed c (pos + bs.length) rest with forwarded := bs ++ (typed c (pos + bs.length) rest).forwarded }
  | [], _, _ => rfl
  | b :: bs, pos, h => by
    rw [List.cons_append, typed, h b List.mem_cons_self, typed_plain c rest bs (pos + 1) (fun x hx => h x (List.mem_cons_of_mem _ hx))]
    simp only [List.length_cons, Nat.add_assoc, Nat.add_comm 1]
    rfl

/-- A special key makes something happen no later than at its position. -/
theorem typed_event (c : ClientKeys) (rest : List Byte) : ∀ (bs : List Byte) (pos : Nat), (∃ x ∈ bs, c.key x ≠ none) →
    ∃ q ∈ (typed c pos (bs ++ rest)).events, q < pos + bs.length
  | [], _, h => by simp at h
  | b :: bs, pos, h => by
    rw [List.cons_append, typed, List.length_cons]
    cases hk : c.key b with
    | some k =>
      refine ⟨pos, ?_, by omega⟩
      cases k with
      | suspend => exact mem_events.2 (.inl List.mem_cons_self)
      | detach => exact mem_events.2 (.inr rfl)
    | none =>
      obtain ⟨x, hx, hkx⟩ := h
      rcases List.mem_cons.1 hx with rfl | hx
      · exact absurd hk hkx
      · obtain ⟨q, hq, hlt⟩ := typed_event c rest bs (pos + 1) ⟨x, hx, hkx⟩
        exact ⟨q, hq, by omega⟩

def SameEvents (o o' : Outcome) : Prop := o.suspensions = o'.suspensions ∧ o.detached = o'.detached

/-- **A key inside a read** is passed over, so reads after it can agree with what is typed only if there is none. -/
theorem plain_of_sameEvents {c : ClientKeys} {bs rest : List Byte} {ps : List (List Byte)} {pos : Nat}
    (h : SameEvents (readRun c (pos + bs.length) ps) (typed c pos (bs ++ rest))) : ∀ x ∈ bs, c.key x = none := by
  by_contra hne
  simp only [not_forall] at hne
  obtain ⟨x, hx, hkx⟩ := hne
  obtain ⟨q, hq, hlt⟩ := typed_event c rest bs pos ⟨x, hx, hkx⟩
  have hmem : q ∈ (readRun c (pos + bs.length) ps).events := by
    rw [Outcome.events, h.1, h.2]
    exact hq
  have := readRun_events_ge c ps _ q hmem
  omega

/-- With the same events, no more is forwarded than is typed. -/
theorem forwarded_le (c : ClientKeys) : ∀ (ps : List (List Byte)) (pos : Nat),
    SameEvents (readRun c pos ps) (typed c pos ps.flatten) →
      (readRun c pos ps).forwarded.length ≤ (typed c pos ps.flatten).forwarded.length
  | [], _, _ => Nat.zero_le _
  | [] :: ps, pos, h => forwarded_le c ps pos h
  | (b :: bs) :: ps, pos, h => by
    have hpos : pos + (b :: bs).length = pos + 1 + bs.length := by rw [List.length_cons]; omega
    rw [List.flatten_cons, List.cons_append, readRun, typed, hpos] at h ⊢
    cases hk : c.key b with
    | none =>
      rw [hk] at h
      have hplain := plain_of_sameEvents h
      simp only [typed_plain c ps.flatten bs (pos + 1) hplain] at h ⊢
      have ih := forwarded_le c ps (pos + 1 + bs.length) h
      simp only [List.length_cons, List.length_append, List.cons_append]
      omega
    | some k =>
      rw [hk] at h
      cases k with
      | suspend =>
        have h' : SameEvents (readRun c (pos + 1 + bs.length) ps) (typed c (pos + 1) (bs ++ ps.flatten)) :=
          ⟨(List.cons.inj h.1).2, h.2⟩
        have hplain := plain_of_sameEvents h'
        simp only [typed_plain c ps.flatten bs (pos + 1) hplain] at h' ⊢
        have ih := forwarded_le c ps (pos + 1 + bs.length) h'
        simp only [List.length_append]
        omega
      | detach => exact Nat.le_refl _

theorem SameEvents.eq : ∀ {o o' : Outcome}, SameEvents o o' → o.forwarded = o'.forwarded → o = o'
  | ⟨_, _, _⟩, ⟨_, _, _⟩, ⟨rfl, rfl⟩, rfl => rfl

/-- **What is typed counts key by key** exactly when every special key comes first in its read, and a suspend key alone. -/
theorem readRun_eq_typed_iff (c : ClientKeys) : ∀ (ps : List (List Byte)) (pos : Nat),
    readRun c pos ps = typed c pos ps.flatten ↔ keysFirst c ps = true
  | [], _ => iff_of_true rfl rfl
  | [] :: ps, pos => readRun_eq_typed_iff c ps pos
  | (b :: bs) :: ps, pos => by
    have hpos : pos + (b :: bs).length = pos + 1 + bs.length := by rw [List.length_cons]; omega
    have ih := readRun_eq_typed_iff c ps (pos + 1 + bs.length)
    rw [List.flatten_cons, List.cons_append, readRun, typed, keysFirst, hpos]
    cases c.key b with
    | none =>
      dsimp only
      rw [Bool.and_eq_true, List.all_eq_true, ← ih]
      simp only [decide_eq_true_eq]
      constructor
      · intro h
        obtain ⟨hfwd, hsus, hdet⟩ := Outcome.mk.inj h
        have hplain := plain_of_sameEvents ⟨hsus, hdet⟩
        rw [typed_plain c ps.flatten bs (pos + 1) hplain] at hfwd hsus hdet
        have hsame : SameEvents (readRun c (pos + 1 + bs.length) ps) (typed c (pos + 1 + bs.length) ps.flatten) := ⟨hsus, hdet⟩
        exact ⟨hplain, hsame.eq (List.append_cancel_left (List.cons.inj hfwd).2)⟩
      · rintro ⟨hplain, heq⟩
        rw [typed_plain c ps.flatten bs (pos + 1) hplain, heq]
        rfl
    | some k =>
      cases k with
      | suspend =>
        dsimp only
        rw [Bool.and_eq_true, ← ih, decide_eq_true_eq]
        constructor
        · intro h
          obtain ⟨hfwd, hsus, hdet⟩ := Outcome.mk.inj h
          have hsame : SameEvents (readRun c (pos + 1 + bs.length) ps) (typed c (pos + 1) (bs ++ ps.flatten)) :=
            ⟨(List.cons.inj hsus).2, hdet⟩
          have hplain := plain_of_sameEvents hsame
          -- what came with the suspend key is dropped, so nothing did
          rw [typed_plain c ps.flatten bs (pos + 1) hplain] at hsame hfwd
          have hle := forwarded_le c ps (pos + 1 + bs.length) hsame
          have hlen := congrArg List.length hfwd
          rw [List.length_append] at hlen
          obtain rfl : bs = [] := List.length_eq_zero_iff.1 (by omega)
          exact ⟨rfl, hsame.eq hfwd⟩
        · rintro ⟨rfl, heq⟩
          rw [heq]
          rfl
      | detach => exact iff_of_true rfl rfl

/-! ## Every way of splitting a stream -/

/-- A stream in which it does not matter how the bytes come in. -/
def OneWay (c : ClientKeys) (stream : List Byte) : Prop :=
  stream.length ≤ 1 ∨ (∃ b, stream.head? = some b ∧ c.key b = some .detach) ∨ ∀ b ∈ stream, c.key b = none

theorem keysFirst_of_oneWay (c : ClientKeys) : ∀ (ps : List (List Byte)), OneWay c ps.flatten → keysFirst c ps = true
  | [], _ => rfl
  | [] :: ps, h => keysFirst_of_oneWay c ps h
  | (b :: bs) :: ps, h => by
    rw [keysFirst]
    cases hk : c.key b with
    | some k =>
      cases k with
      | detach => rfl
      | suspend =>
        rcases h with hlen | ⟨b', hb', hdet⟩ | hplain
        · rw [List.flatten_cons, List.length_append, List.length_cons] at hlen
          obtain rfl : bs = [] := List.length_eq_zero_iff.1 (by omega)
          exact keysFirst_of_oneWay c ps (.inl (by omega))
        · obtain rfl := Option.some.inj hb'
          rw [hk] at hdet
          cases hdet
        · rw [hplain b (by simp)] at hk
          cases hk
    | none =>
      rw [Bool.and_eq_true, List.all_eq_true]
      rcases h with hlen | ⟨b', hb', hdet⟩ | hplain
      · rw [List.flatten_cons, List.length_append, List.length_cons] at hlen
        obtain rfl : bs = [] := List.length_eq_zero_iff.1 (by omega)
        exact ⟨by simp, keysFirst_of_oneWay c ps (.inl (by omega))⟩
      · obtain rfl := Option.some.inj hb'
        rw [hk] at hdet
        cases hdet
      · rw [List.flatten_cons] at hplain
        exact ⟨fun x hx => decide_eq_true (hplain x (by simp [hx])),
          keysFirst_of_oneWay c ps (.inr (.inr (fun x hx => hplain x (List.mem_append_right _ hx))))⟩

theorem keysFirst_single (c : ClientKeys) : ∀ (stream : List Byte), keysFirst c (stream.map (fun b => [b])) = true
  | [] => rfl
  | b :: stream => by
    rw [List.map_cons, keysFirst, keysFirst_single c stream]
    cases c.key b with
    | none => rfl
    | some k => cases k <;> rfl

theorem flatten_single : ∀ (stream : List Byte), (stream.map (fun b => [b])).flatten = stream
  | [] => rfl
  | b :: stream => congrArg (b :: ·) (flatten_single stream)

/-- **Any other stream can come in so that a key is passed over**: in one read with the byte before it, or, a suspend key,
with the byte after it. -/
theorem exists_keys_passed (c : ClientKeys) : ∀ (stream : List Byte), ¬ OneWay c stream →
    ∃ ps : List (List Byte), (∀ p ∈ ps, p ≠ [] ∧ p.length ≤ 8) ∧ ps.flatten = stream ∧ keysFirst c ps = false
  | [], h => absurd (.inl (Nat.zero_le _)) h
  | [b], h => absurd (.inl (Nat.le_refl _)) h
  | b :: x :: stream, h => by
    unfold OneWay at h
    simp only [not_or] at h
    obtain ⟨-, hdet, hplain⟩ := h
    have hpair : keysFirst c ([b, x] :: stream.map (fun b => [b])) = false →
        ∃ ps : List (List Byte), (∀ p ∈ ps, p ≠ [] ∧ p.length ≤ 8) ∧ ps.flatten = b :: x :: stream ∧
          keysFirst c ps = false := by
      intro hk
      refine ⟨[b, x] :: stream.map (fun b => [b]), List.forall_mem_cons.2 ⟨⟨by simp, by simp⟩, ?_⟩, ?_, hk⟩
      · intro p hp
        obtain ⟨y, -, rfl⟩ := List.mem_map.1 hp
        exact ⟨by simp, by simp⟩
      · rw [List.flatten_cons, flatten_single]
        rfl
    cases hb : c.key b with
    | some k =>
      cases k with
      | suspend => exact hpair (by simp [keysFirst, hb])
      | detach => exact absurd ⟨b, rfl, hb⟩ hdet
    | none =>
      by_cases hx : c.key x = none
      · have hrest : ¬ OneWay c (x :: stream) := by
          have hkey : ¬ ∀ y ∈ x :: stream, c.key y = none := fun hall => hplain (List.forall_mem_cons.2 ⟨hb, hall⟩)
          rintro (hlen | ⟨y, hy, hkey'⟩ | hall)
          · rw [List.length_cons] at hlen
            obtain rfl : stream = [] := List.length_eq_zero_iff.1 (by omega)
            exact hkey (by simp [hx])
          · obtain rfl := Option.some.inj hy
            rw [hx] at hkey'
            cases hkey'
          · exact hkey hall
        obtain ⟨ps, hps, hflat, hk⟩ := exists_keys_passed c (x :: stream) hrest
        refine ⟨[b] :: ps, List.forall_mem_cons.2 ⟨⟨by simp, by simp⟩, hps⟩, by rw [List.flatten_cons, hflat]; rfl, ?_⟩
        rw [keysFirst, hb]
        exact hk
      · exact hpair (by simp [keysFirst, hb, hx])

/-- The reads that bring these pieces. -/
def readsFor (ps : List (List Byte)) : List StdinAns := ps.map (fun p => ⟨.ok p, [], ""⟩)

theorem readBytes_readsFor (ps : List (List Byte)) : (readsFor ps).map readBytes = ps := by
  rw [readsFor, List.map_map]
  exact List.map_id' _

theorem readsFor_splitOf (ps : List (List Byte)) (h : ∀ p ∈ ps, p ≠ [] ∧ p.length ≤ 8) : SplitOf ps.flatten (readsFor ps) where
  read := by
    intro a ha
    obtain ⟨p, hp, rfl⟩ := List.mem_map.1 ha
    obtain ⟨b, bs, rfl⟩ := List.exists_cons_of_ne_nil (h p hp).1
    exact .inl ⟨b, bs, rfl, (h _ hp).2⟩
  bytes := by rw [List.flatMap_def, readBytes_readsFor]

theorem SplitOf.run_iff {c : ClientKeys} {stream : List Byte} {as : List StdinAns} (h : SplitOf stream as) :
    stdinRun c 0 as = typed c 0 stream ↔ keysFirst c (as.map readBytes) = true := by
  have hflat : (as.map readBytes).flatten = stream := by
    rw [← List.flatMap_def]
    exact h.bytes
  rw [stdinRun_eq c as 0 h, ← hflat]
  exact readRun_eq_typed_iff c _ 0

/-- **Two ways of splitting what is typed** have the same outcome, that of the bytes one by one, exactly when in both every
special key comes first in its read, and a suspend key alone; every two ways have the same outcome exactly for streams of
one byte at most, or that begin with the detach key, or have no special key in them. -/
theorem typed_iff_keysFirst (c : ClientKeys) (stream : List Byte) :
    (∀ as as', SplitOf stream as → SplitOf stream as' →
      (stdinRun c 0 as = stdinRun c 0 as' ∧ stdinRun c 0 as = typed c 0 stream ↔
        keysFirst c (as.map readBytes) = true ∧ keysFirst c (as'.map readBytes) = true)) ∧
    ((∀ as as', SplitOf stream as → SplitOf stream as' → stdinRun c 0 as = stdinRun c 0 as') ↔ OneWay c stream) := by
  refine ⟨fun as as' h h' => ?_, fun hall => ?_, fun hone as as' h h' => ?_⟩
  · rw [← h.run_iff, ← h'.run_iff]
    exact ⟨fun ⟨heq, htyped⟩ => ⟨htyped, heq ▸ htyped⟩, fun ⟨htyped, htyped'⟩ => ⟨htyped.trans htyped'.symm, htyped⟩⟩
  · by_contra hone
    obtain ⟨ps, hps, hflat, hpassed⟩ := exists_keys_passed c stream hone
    have hsingle : SplitOf stream (readsFor (stream.map (fun b => [b]))) := by
      have := readsFor_splitOf (stream.map (fun b => [b])) (fun p hp => by
        obtain ⟨b, -, rfl⟩ := List.mem_map.1 hp
        exact ⟨by simp, by simp⟩)
      rwa [flatten_single] at this
    have hsplit : SplitOf stream (readsFor ps) := hflat ▸ readsFor_splitOf ps hps
    have htyped : stdinRun c 0 (readsFor (stream.map (fun b => [b]))) = typed c 0 stream :=
      hsingle.run_iff.2 (by rw [readBytes_readsFor]; exact keysFirst_single c stream)
    have hfirst := hsplit.run_iff.1 ((hall _ _ hsplit hsingle).trans htyped)
    rw [readBytes_readsFor, hpassed] at hfirst
    cases hfirst
  · have hkeys : ∀ as, SplitOf stream as → stdinRun c 0 as = typed c 0 stream := by
      intro as h
      refine h.run_iff.2 (keysFirst_of_oneWay c _ ?_)
      rw [← List.flatMap_def, h.bytes]
      exact hone
    rw [hkeys as h, hkeys as' h']

/-- The default detach key, and no suspend key. -/
def defaultKeys : ClientKeys := ⟨"s", "ztch", true, 28, 26, .unspec⟩

/-- A detach key that comes in one read with the byte before it is sent to the session. -/
theorem detach_key_passed_over : ¬ ∀ (c : ClientKeys) (stream : List Byte) (as as' : List StdinAns), SplitOf stream as →
    SplitOf stream as' → stdinRun c 0 as = stdinRun c 0 as' := by
  intro h
  have hone : SplitOf [120, 28] (readsFor [[120], [28]]) := readsFor_splitOf [[120], [28]] (by simp)
  have htwo : SplitOf [120, 28] (readsFor [[120, 28]]) := readsFor_splitOf [[120, 28]] (by simp)
  have heq := h defaultKeys [120, 28] _ _ hone htwo
  revert heq
  decide

end Zatch
