import Zatch.LogFile
import Zatch.Tail
/-!
# Follow — following the log (`cmd_tail` with `-f`)

The follower reads the log at its own offset while the daemon writes and others clear.  What it will print of the log is
known at any time (`viewStep`): what the daemon has written, where a clear takes away what the follower has not read yet with
zeros in its place.  It prints every byte of that once and in order (`follow_view`), and it waits only when there is nothing
to read (`follow_waits`).
-/
namespace Zatch

open Machine (run Along)
open FileCells (writeAt)

/-- Where the follower is: in the loop that prints the tail, before `inotify_add_watch`, in the inner loop of the outer
`loop`, in `select` or `sleep`, or about to read what `inotify` has to say. -/
inductive FollowPhase
  | tail
  | opening
  | draining
  | waiting
  | woken
deriving DecidableEq, Repr

/-- The log with the daemon's end of it, and the follower: the offset of its descriptor, whether it watches the file, and the
events that `inotify` holds for it. -/
structure Follower where
  log : LogFile
  off : Nat
  phase : FollowPhase
  watching : Bool
  events : Nat
deriving DecidableEq, Repr

inductive FollowAct
  /-- the daemon, or a `clear`; an event like the last one not yet read is not kept twice -/
  | log (op : LogFile.LogOp) (coalesced : Bool)
  /-- a `read`, of so many bytes and one more, or an error -/
  | read (got : Option Nat)
  | watch (ok : Bool)
  /-- `select` or `sleep` returns; `select` with an error, or because an event is there -/
  | wake (failed : Bool)
  /-- a `read` of the events, with room for four -/
  | events
deriving DecidableEq

namespace Follower

/-- `cmd_tail` when it has found where the tail starts. -/
def opened (log : LogFile) (n : Nat) : Follower where
  log := log
  off := scanDown log.file n log.file.length 0
  phase := if log.file = [] then .opening else .tail
  watching := false
  events := 0

/-- A step that changes the file is an event of the watch. -/
def touched (s : Follower) (op : LogFile.LogOp) (wrote : List Byte) (coalesced : Bool) : Nat :=
  if s.watching = true ∧ (op = .clear ∨ wrote ≠ []) then if coalesced then max s.events 1 else s.events + 1 else s.events

/-- What a `read` of the follower gets. -/
def got (s : Follower) : Option Nat → List Byte
  | none => []
  | some n => (s.log.file.drop s.off).take (min (n + 1) bufsize)

/-- Where the follower goes when a read gets nothing. -/
def FollowPhase.dry : FollowPhase → FollowPhase
  | .tail => .opening
  | .draining => .waiting
  | phase => phase

/-- One step, with what is handed to `write_buf`. -/
def step (s : Follower) : FollowAct → Follower × List Byte
  | .log op coalesced =>
    ({ s with log := (s.log.step op).1, events := s.touched op (s.log.step op).2 coalesced }, [])
  | .read n =>
    if s.phase = .tail ∨ s.phase = .draining then
      if s.got n = [] then ({ s with phase := FollowPhase.dry s.phase }, [])
      else ({ s with off := s.off + (s.got n).length }, s.got n)
    else (s, [])
  | .watch ok => if s.phase = .opening then ({ s with phase := .draining, watching := ok }, []) else (s, [])
  | .wake failed =>
    if s.phase = .waiting then
      if s.watching = false ∨ failed = true then ({ s with phase := .draining }, [])
      else if s.events = 0 then (s, [])
      else ({ s with phase := .woken }, [])
    else (s, [])
  | .events => if s.phase = .woken then ({ s with phase := .draining, events := s.events - 4 }, []) else (s, [])

end Follower

/-- What there is to follow, after a step: a clear puts zeros in place of what the follower has not read. -/
def viewStep (s : Follower) (view : List Byte) : FollowAct → List Byte
  | .log .clear _ => view.take s.off ++ List.replicate (view.length - s.off) 0
  | .log op _ => view ++ (s.log.step op).2
  | _ => view

def viewOf : Follower → List Byte → List FollowAct → List Byte
  | _, view, [] => view
  | s, view, a :: as => viewOf (s.step a).1 (viewStep s view a) as

/-- What a log holds up to the daemon's offset, with its hole. -/
def LogFile.view (l : LogFile) : List Byte := l.file ++ List.replicate (l.pos - l.file.length) 0

/-- A log is empty, or goes up to where the daemon writes. -/
def LogFile.Whole (l : LogFile) : Prop := l.file = [] ∨ l.file.length = l.pos

theorem LogFile.Whole.step {l : LogFile} (h : l.Whole) (op : LogOp) : (l.step op).1.Whole := by
  by_cases hop : op = .clear
  · subst hop
    exact .inl rfl
  · obtain ⟨hfile, hpos⟩ := LogFile.step_file l hop
    generalize (l.step op).2 = wrote at hfile hpos
    by_cases hw : wrote = []
    · rw [hw] at hfile hpos
      rw [Whole, hfile, hpos, FileCells.writeAt_nil]
      exact h
    · refine .inr ?_
      rw [hfile, hpos]
      rcases h with hnil | hlen
      · rw [hnil, FileCells.writeAt_nil_left 0 _ hw, List.length_append, List.length_replicate]
      · rw [← hlen, FileCells.writeAt_length, List.length_append]

/-- **A log in any run of the daemon and of clears** is empty, or goes up to where the daemon writes. -/
theorem LogFile.whole_run (old : List Byte) (maxSize got : Nat) (ops : List LogOp) :
    (run LogFile.step (LogFile.opened old maxSize got) ops).1.Whole :=
  Machine.run_inv (fun _ op h => h.step op) ops _ (.inr rfl)

theorem LogFile.view_of_length {l : LogFile} (h : l.file.length = l.pos) : l.view = l.file := by
  rw [view, h, Nat.sub_self, List.replicate_zero, List.append_nil]

theorem LogFile.Whole.length_view {l : LogFile} (h : l.Whole) : l.view.length = l.pos := by
  rcases h with h | h
  · simp [view, h]
  · rw [LogFile.view_of_length h, h]

/-- What the daemon writes goes on from what the log holds, hole and all. -/
theorem LogFile.Whole.view_step {l : LogFile} (h : l.Whole) {op : LogOp} (hop : op ≠ .clear) :
    (l.step op).1.view = l.view ++ (l.step op).2 := by
  have hnext := h.step op
  obtain ⟨hfile, hpos⟩ := LogFile.step_file l hop
  generalize hl : (l.step op).1 = l' at hfile hpos hnext
  generalize (l.step op).2 = wrote at hfile hpos
  by_cases hw : wrote = []
  · subst hw
    rw [view, hfile, hpos, view, FileCells.writeAt_nil, List.length_nil, Nat.add_zero, List.append_nil]
  · have hlen : l'.file.length = l'.pos := by
      refine hnext.resolve_left (fun hnil => ?_)
      rw [hfile, FileCells.writeAt_of_ne_nil 0 _ _ hw] at hnil
      exact hw (List.append_eq_nil_iff.1 (List.append_eq_nil_iff.1 hnil).1).2
    rw [LogFile.view_of_length hlen, hfile]
    rcases h with h | h
    · rw [h, FileCells.writeAt_nil_left 0 _ hw, view, h]
      simp
    · rw [LogFile.view_of_length h, ← h, FileCells.writeAt_length]

/-! ## What is printed -/

/-- A follower that has printed the view from where it began up to its offset, and has the rest of it before it. -/
structure Follows (start : Nat) (s : Follower) (view out : List Byte) : Prop where
  whole : s.log.Whole
  length : view.length = s.log.pos
  begun : start ≤ s.off
  off : s.off ≤ s.log.pos
  unread : view.drop s.off = s.log.view.drop s.off
  out : out = (view.take s.off).drop start

theorem Follower.log_step (s : Follower) (op : LogFile.LogOp) (c : Bool) :
    (s.step (.log op c)).1.log = (s.log.step op).1 ∧ (s.step (.log op c)).1.off = s.off ∧ (s.step (.log op c)).2 = [] :=
  ⟨rfl, rfl, rfl⟩

/-- A clear blanks what is unread. -/
theorem Follows.clear {start : Nat} {s : Follower} {view out : List Byte} (h : Follows start s view out) (c : Bool) :
    Follows start (s.step (.log .clear c)).1 (viewStep s view (.log .clear c)) out := by
  have htake : (view.take s.off).length = s.off := by
    rw [List.length_take, h.length]
    exact Nat.min_eq_left h.off
  have hview : (s.step (.log .clear c)).1.log.view = List.replicate s.log.pos 0 := by
    simp [Follower.step, LogFile.step, LogFile.view]
  refine ⟨.inl rfl, ?_, h.begun, h.off, ?_, ?_⟩
  · show (view.take s.off ++ List.replicate (view.length - s.off) 0).length = s.log.pos
    rw [List.length_append, htake, List.length_replicate, h.length]
    have := h.off
    omega
  · rw [hview]
    show (view.take s.off ++ List.replicate (view.length - s.off) 0).drop s.off = _
    rw [List.drop_append_of_le_length (Nat.le_of_eq htake.symm), List.drop_eq_nil_of_le (Nat.le_of_eq htake),
      List.drop_replicate, h.length]
    rfl
  · show out = ((view.take s.off ++ List.replicate (view.length - s.off) 0).take s.off).drop start
    rw [List.take_append_of_le_length (Nat.le_of_eq htake.symm), List.take_take, Nat.min_self]
    exact h.out

/-- What the daemon writes is put after what there was. -/
theorem Follows.write {start : Nat} {s : Follower} {view out : List Byte} (h : Follows start s view out)
    {op : LogFile.LogOp} (hop : op ≠ .clear) (c : Bool) :
    Follows start (s.step (.log op c)).1 (view ++ (s.log.step op).2) out := by
  have hpos := LogFile.step_pos s.log op
  have hoff : s.off ≤ view.length := by
    rw [h.length]
    exact h.off
  refine ⟨h.whole.step op, ?_, h.begun, ?_, ?_, ?_⟩
  · show (view ++ (s.log.step op).2).length = (s.log.step op).1.pos
    rw [List.length_append, h.length, hpos]
  · show s.off ≤ (s.log.step op).1.pos
    have := h.off
    omega
  · show (view ++ (s.log.step op).2).drop s.off = (s.log.step op).1.view.drop s.off
    rw [h.whole.view_step hop, List.drop_append_of_le_length hoff,
      List.drop_append_of_le_length (by rw [h.whole.length_view]; exact h.off), h.unread]
  · show out = ((view ++ (s.log.step op).2).take s.off).drop start
    rw [List.take_append_of_le_length hoff]
    exact h.out

/-- A read prints what comes next. -/
theorem Follows.read {start : Nat} {s : Follower} {view out : List Byte} (h : Follows start s view out) (n : Option Nat)
    (hgot : s.got n ≠ []) : Follows start { s with off := s.off + (s.got n).length } view (out ++ s.got n) := by
  obtain ⟨k, hk⟩ : ∃ k, s.got n = (s.log.file.drop s.off).take k := by
    cases n with
    | none => exact absurd rfl hgot
    | some n => exact ⟨_, rfl⟩
  have hfile : s.log.file.length = s.log.pos := by
    refine h.whole.resolve_left (fun hnil => hgot ?_)
    rw [hk, hnil, List.drop_nil, List.take_nil]
  have hview : view.drop s.off = s.log.file.drop s.off := by rw [h.unread, LogFile.view_of_length hfile]
  have htake : s.got n = (view.drop s.off).take (s.got n).length := by
    rw [hview, hk, List.length_take, List.take_eq_take_min]
  have hlen : (s.got n).length ≤ s.log.pos - s.off := by
    rw [hk, List.length_take, List.length_drop, hfile]
    exact Nat.min_le_right _ _
  refine ⟨h.whole, h.length, Nat.le_add_right_of_le h.begun, ?_, ?_, ?_⟩
  · have := h.off
    show s.off + (s.got n).length ≤ s.log.pos
    omega
  · show view.drop (s.off + _) = s.log.view.drop (s.off + _)
    rw [← List.drop_drop, ← List.drop_drop, h.unread]
  · show out ++ s.got n = (view.take (s.off + (s.got n).length)).drop start
    rw [List.take_add, ← htake, List.drop_append_of_le_length, ← h.out]
    rw [List.length_take, h.length]
    have := h.off
    have := h.begun
    omega

theorem Follows.step {start : Nat} {s : Follower} {view out : List Byte} (h : Follows start s view out) (a : FollowAct) :
    Follows start (s.step a).1 (viewStep s view a) (out ++ (s.step a).2) := by
  have hsame : ∀ (p : FollowPhase) (w : Bool) (e : Nat),
      Follows start { s with phase := p, watching := w, events := e } view (out ++ []) := by
    intro p w e
    rw [List.append_nil]
    exact ⟨h.whole, h.length, h.begun, h.off, h.unread, h.out⟩
  cases a with
  | log op c =>
    rw [(s.log_step op c).2.2, List.append_nil]
    by_cases hop : op = .clear
    · subst hop
      exact h.clear c
    · have hview : viewStep s view (.log op c) = view ++ (s.log.step op).2 := by
        cases op <;> first | rfl | exact absurd rfl hop
      rw [hview]
      exact h.write hop c
  | read n =>
    simp only [Follower.step]
    split
    · split
      · exact hsame _ _ _
      · exact h.read n ‹_›
    · exact hsame _ _ _
  | watch ok =>
    simp only [Follower.step]
    split <;> exact hsame _ _ _
  | wake failed =>
    simp only [Follower.step]
    split
    · split
      · exact hsame _ _ _
      · split <;> exact hsame _ _ _
    · exact hsame _ _ _
  | events =>
    simp only [Follower.step]
    split <;> exact hsame _ _ _

theorem Follows.run {start : Nat} : ∀ (acts : List FollowAct) {s : Follower} {view out : List Byte},
    Follows start s view out → Follows start (run Follower.step s acts).1 (viewOf s view acts) (out ++ (run Follower.step s acts).2)
  | [], _, _, _, h => by simpa [viewOf] using h
  | a :: acts, s, view, out, h => by
    rw [Machine.run_cons, viewOf, ← List.append_assoc]
    exact Follows.run acts (h.step a)

theorem Follower.opened_follows {log : LogFile} (h : log.Whole) (n : Nat) :
    Follows (Follower.opened log n).off (Follower.opened log n) log.view [] := by
  have hoff : scanDown log.file n log.file.length 0 ≤ log.file.length := by
    rcases scanDown_spec log.file n log.file.length 0 (Nat.zero_le n) with ⟨h, -⟩ | ⟨q, h, hq, -⟩ <;> omega
  have hfile : log.file.length ≤ log.pos := by
    rcases h with h | h
    · rw [h]
      exact Nat.zero_le _
    · exact Nat.le_of_eq h
  refine ⟨h, h.length_view, Nat.le_refl _, Nat.le_trans hoff hfile, rfl, ?_⟩
  rw [List.drop_eq_nil_of_le (by rw [List.length_take]; exact Nat.min_le_left _ _)]

/-- Where the tail starts is where `find_tail_start` says. -/
theorem Follower.opened_off (checks : Bool) (f : RegularFile) {log : LogFile} {n : Nat} (hf : f.cells = log.file)
    (hn : n < i32Max) : findTailStart checks f f.cells.length n = some (.ok (Follower.opened log n).off) := by
  rw [findTailStart_eq checks f (.inl hn), hf]
  rfl

/-- What is printed and what is unread are the view, while the log is not empty. -/
theorem Follows.printed {start : Nat} {s : Follower} {view out : List Byte} (h : Follows start s view out)
    (hne : s.log.file ≠ []) : out ++ s.log.file.drop s.off = view.drop start := by
  have hfile := LogFile.view_of_length (h.whole.resolve_left hne)
  have hoff : s.off ≤ view.length := by
    rw [h.length]
    exact h.off
  rw [← hfile, ← h.unread, h.out]
  conv => rhs; rw [← List.take_append_drop s.off view]
  rw [List.drop_append_of_le_length]
  rw [List.length_take, Nat.min_eq_left hoff]
  exact h.begun

/-- A follower that begins in any run of the daemon and of clears. -/
theorem follows_run (old : List Byte) (maxSize got : Nat) (before : List LogFile.LogOp) (n : Nat) (acts : List FollowAct) :
    let log := (run LogFile.step (LogFile.opened old maxSize got) before).1
    Follows (Follower.opened log n).off (run Follower.step (Follower.opened log n) acts).1
      (viewOf (Follower.opened log n) log.view acts) (run Follower.step (Follower.opened log n) acts).2 :=
  Follows.run acts (Follower.opened_follows (LogFile.whole_run old maxSize got before) n)

/-- **Every byte once, and in order**: in any run of the daemon, of clears and of a follower that begins anywhere in it, what
has been printed is what there was to follow from where the tail starts up to the follower's offset; and while the log is not
empty, what has been printed and what is unread are all there was to follow. -/
theorem follow_view (old : List Byte) (maxSize got : Nat) (before : List LogFile.LogOp) (n : Nat) (acts : List FollowAct) :
    let log := (run LogFile.step (LogFile.opened old maxSize got) before).1
    let r := run Follower.step (Follower.opened log n) acts
    let view := viewOf (Follower.opened log n) log.view acts
    r.2 = (view.take r.1.off).drop (Follower.opened log n).off ∧ r.1.off ≤ view.length ∧
      (r.1.log.file ≠ [] → r.2 ++ r.1.log.file.drop r.1.off = view.drop (Follower.opened log n).off) ∧
      ∀ (checks : Bool) (f : RegularFile), f.cells = log.file → n < i32Max →
        findTailStart checks f f.cells.length n = some (.ok (Follower.opened log n).off) := by
  intro log r view
  have hf := follows_run old maxSize got before n acts
  exact ⟨hf.out, by rw [hf.length]; exact hf.off, hf.printed, fun checks f hcells hn => Follower.opened_off checks f hcells hn⟩

/-! ## The stream itself -/

/-- The follower has read all there is, whenever the log is cleared. -/
def CaughtUp (s : Follower) : FollowAct → Prop
  | .log .clear _ => s.off = s.log.pos
  | _ => True

instance (s : Follower) (a : FollowAct) : Decidable (CaughtUp s a) := by
  unfold CaughtUp
  split <;> infer_instance

def FollowAct.logOp : FollowAct → Option LogFile.LogOp
  | .log op _ => some op
  | _ => none

/-- What the daemon writes in a run. -/
def written (log : LogFile) (acts : List FollowAct) : List Byte := (run LogFile.step log (acts.filterMap FollowAct.logOp)).2

theorem Follower.step_log (s : Follower) {a : FollowAct} (h : a.logOp = none) : (s.step a).1.log = s.log := by
  cases a with
  | log op c => cases h
  | read n =>
    simp only [Follower.step]
    split
    · split <;> rfl
    · rfl
  | watch ok =>
    simp only [Follower.step]
    split <;> rfl
  | wake failed =>
    simp only [Follower.step]
    split
    · split
      · rfl
      · split <;> rfl
    · rfl
  | events =>
    simp only [Follower.step]
    split <;> rfl

/-- Caught up at every clear, a follower has what the daemon writes before it, and nothing else. -/
theorem viewOf_caughtUp {start : Nat} : ∀ (acts : List FollowAct) {s : Follower} {view out : List Byte},
    Follows start s view out → Along Follower.step CaughtUp s acts → viewOf s view acts = view ++ written s.log acts
  | [], _, _, _, _, _ => by simp [viewOf, written]
  | a :: acts, s, view, out, h, hc => by
    rw [viewOf, viewOf_caughtUp acts (h.step a) hc.2]
    cases a with
    | log op c =>
      have hw : written s.log (.log op c :: acts) = (s.log.step op).2 ++ written (s.log.step op).1 acts := rfl
      rw [hw, (s.log_step op c).1]
      by_cases hop : op = .clear
      · subst hop
        have hoff : s.off = s.log.pos := hc.1
        have hview : viewStep s view (.log .clear c) = view := by
          show view.take s.off ++ List.replicate (view.length - s.off) 0 = view
          rw [h.length, hoff, Nat.sub_self, List.replicate_zero, List.append_nil, ← h.length, List.take_length]
        rw [hview]
        rfl
      · have hview : viewStep s view (.log op c) = view ++ (s.log.step op).2 := by
          cases op <;> first | rfl | exact absurd rfl hop
        rw [hview, List.append_assoc]
    | read n | watch ok | wake failed | events =>
      rw [Follower.step_log s rfl]
      rfl

/-- **A follower that has caught up whenever the log is cleared** prints what the daemon writes, every byte once and in
order: no clear makes it miss anything, or print anything twice. -/
theorem follow_exact (old : List Byte) (maxSize got : Nat) (before : List LogFile.LogOp) (n : Nat) (acts : List FollowAct)
    (h : Along Follower.step CaughtUp
      (Follower.opened (run LogFile.step (LogFile.opened old maxSize got) before).1 n) acts) :
    let log := (run LogFile.step (LogFile.opened old maxSize got) before).1
    let r := run Follower.step (Follower.opened log n) acts
    r.2 = ((log.view ++ written log acts).take r.1.off).drop (Follower.opened log n).off ∧
      (r.1.log.file ≠ [] →
        r.2 ++ r.1.log.file.drop r.1.off = (log.view ++ written log acts).drop (Follower.opened log n).off) := by
  intro log r
  have hview : viewOf (Follower.opened log n) log.view acts = log.view ++ written log acts :=
    viewOf_caughtUp acts (Follower.opened_follows (LogFile.whole_run old maxSize got before) n) h
  have hf := follows_run old maxSize got before n acts
  rw [← hview]
  exact ⟨hf.out, hf.printed⟩

/-- A follower that has caught up when the log is cleared under it. -/
def clearedUnder : List FollowAct :=
  [.log (.write [104, 10]) false, .log (.put (.room 2)) false, .watch true, .read (some 4095), .read (some 4095),
    .log .clear false, .wake false, .events, .log (.write [105]) false, .log (.put (.room 1)) false, .read (some 0),
    .read (some 0)]

theorem follow_exact_cleared :
    let s := Follower.opened (LogFile.opened [] 64 0) 1
    (run Follower.step s clearedUnder).2 = [104, 10, 105] ∧
      (run Follower.step s clearedUnder).2 =
        (((LogFile.opened [] 64 0).view ++ written (LogFile.opened [] 64 0) clearedUnder).take
          (run Follower.step s clearedUnder).1.off).drop s.off :=
  ⟨by decide, (follow_exact [] 64 0 [] 1 clearedUnder (by decide)).1⟩

/-! ## Waiting -/

/-- A follower that is at `select`, or has returned from it, with no event to read, has nothing to read. -/
def Awake (s : Follower) : Prop :=
  s.watching = true → s.events = 0 → s.phase = .waiting ∨ s.phase = .woken → s.log.file.length ≤ s.off

/-- **No step of the daemon goes by unseen**, and the follower goes to wait only at the end of the log. -/
theorem Awake.step {s : Follower} (h : Awake s) {a : FollowAct} (ha : a ≠ .read none) : Awake (s.step a).1 := by
  cases a with
  | log op c =>
    intro hw he hp
    by_cases hch : op = .clear ∨ (s.log.step op).2 ≠ []
    · -- the file is changed, so there is an event
      exfalso
      have hpos : (s.step (.log op c)).1.events ≠ 0 := by
        show s.touched op (s.log.step op).2 c ≠ 0
        rw [Follower.touched, if_pos ⟨hw, hch⟩]
        split
        · exact Nat.ne_of_gt (Nat.le_max_right _ 1)
        · exact Nat.succ_ne_zero _
      exact hpos he
    · have hsame : (s.log.step op).1.file = s.log.file := by
        rw [not_or, not_ne_iff] at hch
        rw [(LogFile.step_file s.log hch.1).1, hch.2, FileCells.writeAt_nil]
      show (s.log.step op).1.file.length ≤ s.off
      rw [hsame]
      refine h hw ?_ hp
      rw [← he]
      show s.events = s.touched op (s.log.step op).2 c
      rw [Follower.touched, if_neg (fun h' => hch h'.2)]
  | read n =>
    cases n with
    | none => exact absurd rfl ha
    | some n =>
      simp only [Follower.step]
      split
      · rename_i hphase
        split
        · rename_i hdry
          intro _ _ _
          show s.log.file.length ≤ s.off
          simp only [Follower.got, List.take_eq_nil_iff, List.drop_eq_nil_iff] at hdry
          apply hdry.resolve_left
          simp only [bufsize]
          omega
        · intro _ _ hp
          rcases hphase with h' | h' <;> simp [h'] at hp
      · exact h
  | watch ok =>
    simp only [Follower.step]
    split
    · intro _ _ hp
      simp at hp
    · exact h
  | wake failed =>
    simp only [Follower.step]
    split
    · rename_i hphase
      split
      · intro _ _ hp
        simp at hp
      · split
        · exact h
        · exact fun hw he _ => h hw he (.inl hphase)
    · exact h
  | events =>
    simp only [Follower.step]
    split
    · intro _ _ hp
      simp at hp
    · exact h

/-- **A follower that waits has printed all there is**: when it is at `select` with no event to read, and no read has failed,
the log has nothing that it has not read, however the daemon's writes and the clears fell between its reads, its events and
the moment it began to watch. -/
theorem follow_waits (old : List Byte) (maxSize got : Nat) (before : List LogFile.LogOp) (n : Nat) (acts : List FollowAct)
    (h : .read none ∉ acts) :
    let log := (run LogFile.step (LogFile.opened old maxSize got) before).1
    let r := run Follower.step (Follower.opened log n) acts
    r.1.phase = .waiting → r.1.watching = true → r.1.events = 0 →
      r.1.log.file.length ≤ r.1.off ∧
        (r.1.log.file ≠ [] → r.2 = (viewOf (Follower.opened log n) log.view acts).drop (Follower.opened log n).off) := by
  intro log r hp hw he
  have hopened : Awake (Follower.opened log n) := fun hw => by cases hw
  have hawake : Awake r.1 := Along.inv (P := fun _ a => a ≠ .read none) (fun _ _ hs ha => hs.step ha) hopened
    (Machine.along_of_forall acts _ (fun a hmem _ heq => h (heq ▸ hmem)))
  have hlen := hawake hw he (.inl hp)
  refine ⟨hlen, fun hne => ?_⟩
  have hprinted := (follows_run old maxSize got before n acts).printed hne
  rwa [List.drop_eq_nil_of_le hlen, List.append_nil] at hprinted

theorem follow_waits_cleared :
    let s := Follower.opened (LogFile.opened [] 64 0) 1
    let acts := clearedUnder ++ [.wake false, .events, .read (some 0)]
    (run Follower.step s acts).1.log.file = [0, 0, 105] ∧
      (run Follower.step s acts).2 = (viewOf s (LogFile.opened [] 64 0).view acts).drop s.off := by
  intro s acts
  have h := follow_waits [] 64 0 [] 1 acts (by decide) (by decide +kernel) (by decide +kernel) (by decide +kernel)
  exact ⟨by decide +kernel, h.2 (by decide +kernel)⟩

end Zatch
