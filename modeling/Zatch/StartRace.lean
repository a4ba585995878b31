import Zatch.Startup
/-!
# StartRace — starts of one session at the same time (`session_daemon_main`, `listen_unix`)

Any number of calls of `session_daemon_main` for one path, each at its own place between its probe and its daemon's end,
make their system calls in any order.  Two of these orders lose a running daemon its socket: a start binds while another
has judged the path stale and not yet unlinked it, or a start probes while another is between its `bind` and its
`listen`.  Without them a daemon that runs has its socket at the path, and each of them can lead to one that has not
(`calm_starts_safe`).  By itself a start is `listen_unix` (`solo_start`) and never races (`solo_calm`).
-/
namespace Zatch

open Machine (run Along)

/-- Where a call is, with the number of its socket's file from where it has made it. -/
inductive Stage
  | idle
  /-- the probe was refused: the path is to be unlinked -/
  | stale
  | cleared
  | bound (i : Nat)
  | listening (i : Nat)
  /-- `listen_unix` has returned the listener -/
  | running (i : Nat)
  /-- after the `unlink` of its cleanup -/
  | cleaned (i : Nat)
  | ended
deriving DecidableEq, Repr

/-- The file of the process's socket. -/
def Stage.file : Stage → Option Nat
  | .bound i | .listening i | .running i | .cleaned i => some i
  | _ => none

/-- The socket that the process means to have at the path, and whether it listens. -/
def Stage.serves : Stage → Option (Nat × Bool)
  | .bound i => some (i, false)
  | .listening i | .running i => some (i, true)
  | _ => none

/-- A system call of `session_daemon_main`, or the end of its process, with what the system answers. -/
inductive Call
  | probe (trouble : Option Trouble)
  | unlink
  | bind (refused : Option Errno)
  | listen (err : Option Errno)
  /-- `set_nonblocking` and `set_permissions` -/
  | setup (err : Option Errno)
  | cleanup
  | exit

structure Starts where
  fs : Fs
  stage : Nat → Stage

namespace Starts

def move (r : Starts) (pid : Nat) (fs : Fs) (ph : Stage) : Starts where
  fs := fs
  stage q := if q = pid then ph else r.stage q

/-- The next call of one process.  A call that is not the process's next does nothing. -/
def step (path : Str) (r : Starts) (m : Nat × Call) : Starts × List Empty :=
  (match r.stage m.1, m.2 with
  | .idle, .probe trouble =>
    match streamConnect r.fs trouble path with
    | .ok _ => r.move m.1 r.fs .ended
    | .error e => r.move m.1 r.fs (if e = some .econnrefused then .stale else .cleared)
  | .stale, .unlink => r.move m.1 (r.fs.unlink path).1 .cleared
  | .cleared, .bind refused =>
    match listenerBind r.fs refused path with
    | .ok fs => r.move m.1 fs (.bound r.fs.next)
    | .error _ => r.move m.1 r.fs .ended
  | .bound i, .listen none => r.move m.1 (r.fs.setNode i (.socket true)) (.listening i)
  | .bound _, .listen (some _) => r.move m.1 r.fs .ended
  | .listening i, .setup none => r.move m.1 r.fs (.running i)
  | .listening i, .setup (some _) => r.move m.1 (r.fs.setNode i (.socket false)) .ended
  | .running i, .cleanup => r.move m.1 (r.fs.unlink path).1 (.cleaned i)
  | ph, .exit =>
    match ph.file with
    | some i => r.move m.1 (r.fs.setNode i (.socket false)) .ended
    | none => r.move m.1 r.fs .ended
  | _, _ => r, [])

/-- Every daemon that runs has its socket at the path, with its listener; so there is one. -/
structure Safe (path : Str) (r : Starts) : Prop where
  one : ∀ pid pid' i i', r.stage pid = .running i → r.stage pid' = .running i' → pid = pid'
  reachable : ∀ pid i, r.stage pid = .running i → r.fs.dir path = some i ∧ r.fs.node i = .socket true

/-- Before any of the starts: at the path there is whatever there is, and if it is a running daemon's socket, that is one
of the processes. -/
structure Initial (path : Str) (r : Starts) : Prop where
  stages : ∀ pid, r.stage pid = .idle ∨ ∃ i, r.stage pid = .running i
  safe : r.Safe path

/-- The call that does not race: it does not bind while another start has judged the path stale, or probe while another
has bound its socket and does not listen yet. -/
def Calm (path : Str) (r : Starts) (m : Nat × Call) : Prop :=
  match m.2 with
  | .probe trouble =>
    r.stage m.1 = .idle → trouble = none → r.fs.frozen path = false → ∀ pid i, r.stage pid ≠ .bound i
  | .bind refused =>
    r.stage m.1 = .cleared → refused = none → Fits path → r.fs.dir path = none → r.fs.frozen path = false →
      ∀ pid, r.stage pid ≠ .stale
  | _ => True

/-- What holds between the calls of a run that does not race. -/
structure Inv (path : Str) (r : Starts) : Prop where
  own : ∀ pid i l, (r.stage pid).serves = some (i, l) → r.fs.dir path = some i ∧ r.fs.node i = .socket l
  apart : ∀ pid pid' i, (r.stage pid).file = some i → (r.stage pid').file = some i → pid = pid'
  fresh : ∀ pid i, (r.stage pid).file = some i → i < r.fs.next
  unjudged : r.fs.frozen path = false → ∀ pid pid', (r.stage pid).serves ≠ none → r.stage pid' ≠ .stale
  fits : ∀ pid i, r.stage pid = .bound i → Fits path

@[simp] theorem move_fs (r : Starts) (pid : Nat) (fs : Fs) (ph : Stage) : (r.move pid fs ph).fs = fs := rfl

@[simp] theorem move_stage_self (r : Starts) (pid : Nat) (fs : Fs) (ph : Stage) : (r.move pid fs ph).stage pid = ph :=
  if_pos rfl

theorem move_stage_of_ne (r : Starts) {pid q : Nat} (fs : Fs) (ph : Stage) (h : q ≠ pid) :
    (r.move pid fs ph).stage q = r.stage q := if_neg h

theorem move_stage_cases (r : Starts) (pid : Nat) (fs : Fs) (ph : Stage) (q : Nat) :
    (q = pid ∧ (r.move pid fs ph).stage q = ph) ∨ (q ≠ pid ∧ (r.move pid fs ph).stage q = r.stage q) := by
  by_cases hq : q = pid
  · exact .inl ⟨hq, hq ▸ move_stage_self r pid fs ph⟩
  · exact .inr ⟨hq, move_stage_of_ne r fs ph hq⟩

theorem move_move (r : Starts) (pid : Nat) (fs fs' : Fs) (ph ph' : Stage) :
    (r.move pid fs ph).move pid fs' ph' = r.move pid fs' ph' := by
  simp only [move, mk.injEq, true_and]
  funext q
  by_cases hq : q = pid <;> simp [hq]

end Starts

theorem Stage.file_of_serves {ph : Stage} {i : Nat} {l : Bool} (h : ph.serves = some (i, l)) : ph.file = some i := by
  cases ph <;> cases h <;> rfl

namespace Starts

variable {path : Str} {r : Starts}

theorem Inv.safe (h : r.Inv path) : r.Safe path := by
  have hown : ∀ pid i, r.stage pid = .running i → r.fs.dir path = some i ∧ r.fs.node i = .socket true := by
    intro pid i hpid
    exact h.own pid i true (by rw [hpid]; rfl)
  refine ⟨fun pid pid' i i' hpid hpid' => ?_, hown⟩
  have hii : i = i' := by
    rw [← Option.some_inj, ← (hown pid i hpid).1, ← (hown pid' i' hpid').1]
  apply h.apart pid pid' i
  · rw [hpid]
    rfl
  · rw [hpid', hii]
    rfl

theorem Initial.inv (h : r.Initial path) : r.Inv path := by
  have hrunning : ∀ pid i, (r.stage pid).file = some i → r.stage pid = .running i := by
    intro pid i hi
    rcases h.stages pid with hpid | ⟨j, hpid⟩ <;> rw [hpid] at hi <;> cases hi
    exact hpid
  refine ⟨?_, ?_, ?_, ?_, ?_⟩
  · intro pid i l hserves
    have hpid := hrunning pid i (Stage.file_of_serves hserves)
    rw [hpid] at hserves
    cases hserves
    exact h.safe.reachable pid i hpid
  · exact fun pid pid' i hi hi' => h.safe.one pid pid' i i (hrunning pid i hi) (hrunning pid' i hi')
  · exact fun pid i hi => r.fs.dir_lt path i (h.safe.reachable pid i (hrunning pid i hi)).1
  · intro _ _ pid' _ hstale
    rcases h.stages pid' with hpid | ⟨i, hpid⟩ <;> rw [hpid] at hstale <;> cases hstale
  · intro pid i hbound
    rcases h.stages pid with hpid | ⟨j, hpid⟩ <;> rw [hpid] at hbound <;> cases hbound

/-- What a process's move has to leave for the invariant: the others' sockets, its own, and no judgement that a socket
of another contradicts. -/
theorem Inv.move (h : r.Inv path) {pid : Nat} {fs : Fs} {ph : Stage} (hnext : r.fs.next ≤ fs.next)
    (hfrozen : fs.frozen = r.fs.frozen)
    (hothers : ∀ q i l, q ≠ pid → (r.stage q).serves = some (i, l) → fs.dir path = some i ∧ fs.node i = .socket l)
    (hown : ∀ i l, ph.serves = some (i, l) → fs.dir path = some i ∧ fs.node i = .socket l)
    (hfile : ∀ i, ph.file = some i → (r.stage pid).file = some i ∨ i = r.fs.next ∧ i < fs.next)
    (hstale : r.fs.frozen path = false → ph = .stale → ∀ q, (r.stage q).serves = none)
    (hserves : r.fs.frozen path = false → ph.serves ≠ none → ∀ q, r.stage q ≠ .stale)
    (hfits : ∀ i, ph = .bound i → Fits path) : (r.move pid fs ph).Inv path := by
  have hnew : ∀ q i, q ≠ pid → ph.file = some i → (r.stage q).file ≠ some i := by
    intro q i hq hi hqi
    rcases hfile i hi with hpid | ⟨rfl, -⟩
    · exact hq (h.apart q pid i hqi hpid)
    · exact Nat.lt_irrefl _ (h.fresh q _ hqi)
  constructor
  case own =>
    intro q i l hq
    rcases move_stage_cases r pid fs ph q with ⟨-, h'⟩ | ⟨hqp, h'⟩ <;> rw [h'] at hq
    · exact hown i l hq
    · exact hothers q i l hqp hq
  case apart =>
    intro q q' i hq hq'
    rcases move_stage_cases r pid fs ph q with ⟨hqp, h1⟩ | ⟨hqp, h1⟩ <;>
      rcases move_stage_cases r pid fs ph q' with ⟨hqp', h2⟩ | ⟨hqp', h2⟩ <;> rw [h1] at hq <;> rw [h2] at hq'
    · rw [hqp, hqp']
    · exact absurd hq' (hnew q' i hqp' hq)
    · exact absurd hq (hnew q i hqp hq')
    · exact h.apart q q' i hq hq'
  case fresh =>
    intro q i hq
    rcases move_stage_cases r pid fs ph q with ⟨-, h'⟩ | ⟨-, h'⟩ <;> rw [h'] at hq
    · rcases hfile i hq with hpid | ⟨-, hlt⟩
      · exact Nat.lt_of_lt_of_le (h.fresh pid i hpid) hnext
      · exact hlt
    · exact Nat.lt_of_lt_of_le (h.fresh q i hq) hnext
  case unjudged =>
    intro hfr q q' hq hq'
    rw [move_fs, hfrozen] at hfr
    rcases move_stage_cases r pid fs ph q with ⟨-, h1⟩ | ⟨-, h1⟩ <;>
      rcases move_stage_cases r pid fs ph q' with ⟨-, h2⟩ | ⟨-, h2⟩ <;> rw [h1] at hq <;> rw [h2] at hq'
    · rw [hq'] at hq
      exact hq rfl
    · exact hserves hfr hq q' hq'
    · exact hq (hstale hfr hq' q)
    · exact h.unjudged hfr q q' hq hq'
  case fits =>
    intro q i hq
    rcases move_stage_cases r pid fs ph q with ⟨-, h'⟩ | ⟨-, h'⟩ <;> rw [h'] at hq
    · exact hfits i hq
    · exact h.fits q i hq

/-- A move that leaves the files as they are, to a stage that serves no more than before. -/
theorem Inv.move_stage (h : r.Inv path) {pid : Nat} {ph : Stage}
    (hfile : ∀ i, ph.file = some i → (r.stage pid).file = some i)
    (hserves : ∀ x, ph.serves = some x → (r.stage pid).serves = some x) (hbound : ∀ i, ph ≠ .bound i)
    (hstale : r.fs.frozen path = false → ph = .stale → ∀ q, (r.stage q).serves = none) :
    (r.move pid r.fs ph).Inv path := by
  refine h.move (Nat.le_refl _) rfl (fun q i l _ => h.own q i l) (fun i l hi => h.own pid i l (hserves _ hi))
    (fun i hi => .inl (hfile i hi)) hstale ?_ (fun i hi => absurd hi (hbound i))
  intro hfr hne q
  obtain ⟨x, hx⟩ := Option.ne_none_iff_exists'.1 hne
  apply h.unjudged hfr pid q
  rw [hserves x hx]
  exact Option.some_ne_none x

/-- What a process does to its own socket leaves the others theirs. -/
theorem Inv.own_setNode (h : r.Inv path) {pid i : Nat} (hpid : (r.stage pid).file = some i)
    (kind : FileSystem.Kind OsStr Byte) (q j : Nat) (l : Bool) (hq : q ≠ pid) (hserves : (r.stage q).serves = some (j, l)) :
    (r.fs.setNode i kind).dir path = some j ∧ (r.fs.setNode i kind).node j = .socket l := by
  have hj : j ≠ i := by
    rintro rfl
    exact hq (h.apart q pid j (Stage.file_of_serves hserves) hpid)
  rw [FileSystem.Fs.setNode_node_of_ne _ _ hj]
  exact h.own q j l hserves

/-- The end of a process, and of its listener with it. -/
theorem Inv.move_ended (h : r.Inv path) {pid i : Nat} (hpid : (r.stage pid).file = some i) :
    (r.move pid (r.fs.setNode i (.socket false)) .ended).Inv path := by
  refine h.move (Nat.le_refl _) rfl (h.own_setNode hpid _) ?_ ?_ ?_ ?_ ?_
  · exact fun j l hserves => by cases hserves
  · exact fun j hfile => by cases hfile
  · exact fun _ hph => by cases hph
  · exact fun _ hne => absurd rfl hne
  · exact fun j hph => by cases hph

/-- An `unlink` that takes no one's socket away. -/
theorem Inv.move_unlink (h : r.Inv path) {pid : Nat} {ph : Stage} (hfile : ph.file = (r.stage pid).file)
    (hserves : ph.serves = none) (hph : ph ≠ .stale)
    (halone : r.fs.frozen path = false → ∀ q, q ≠ pid → (r.stage q).serves = none) :
    (r.move pid (r.fs.unlink path).1 ph).Inv path := by
  have hafter := FileSystem.Fs.unlink_after r.fs path
  refine h.move hafter.next_le hafter.frozen_eq ?_ ?_ ?_ ?_ ?_ ?_
  · intro q i l hq hqi
    by_cases hfr : r.fs.frozen path = false
    · rw [halone hfr q hq] at hqi
      cases hqi
    · have hkept : ¬ r.fs.Removable path := fun ⟨_, _, _, hremovable⟩ => hfr hremovable
      rw [FileSystem.Fs.unlink_of_not_removable hkept]
      exact h.own q i l hqi
  · intro i l hi
    rw [hserves] at hi
    cases hi
  · exact fun i hi => .inl (hfile ▸ hi)
  · exact fun _ hstale => absurd hstale hph
  · exact fun _ hne => absurd hserves hne
  · rintro i rfl
    cases hserves

/-- A start that does not race judges the path stale only where no one serves it. -/
theorem Inv.none_serves (h : r.Inv path) {pid : Nat} {trouble : Option Trouble} (hidle : r.stage pid = .idle)
    (hm : r.Calm path (pid, .probe trouble)) (hfrozen : r.fs.frozen path = false)
    (hrefused : streamConnect r.fs trouble path = .error (some .econnrefused)) (q : Nat) : (r.stage q).serves = none := by
  obtain ⟨htrouble, -, -, kind, hstat, hlive⟩ := connect_refused_iff.1 hrefused
  cases hq : (r.stage q).serves with
  | none => rfl
  | some x =>
    obtain ⟨i, listening⟩ := x
    obtain ⟨hdir, hnode⟩ := h.own q i listening hq
    rw [FileSystem.Fs.stat_of_socket hdir hnode, Except.ok.injEq] at hstat
    cases listening with
    | true => exact absurd hstat.symm hlive
    | false =>
      have hbound : r.stage q = .bound i := by
        generalize r.stage q = ph at hq
        cases ph <;> cases hq
        rfl
      exact absurd hbound (hm hidle htrouble hfrozen q i)

/-- A socket that is made where nothing was, and no one has judged what was there. -/
theorem Inv.bind (h : r.Inv path) (hne : path ≠ []) {pid : Nat} {refused : Option Errno} {fs : Fs}
    (hcleared : r.stage pid = .cleared) (hm : r.Calm path (pid, .bind refused))
    (hbind : listenerBind r.fs refused path = .ok fs) : (r.move pid fs (.bound r.fs.next)).Inv path := by
  obtain ⟨hrefused, hfits, ⟨hnil, -⟩ | ⟨-, hfree, rfl⟩⟩ := listenerBind_ok_iff.1 hbind
  · exact absurd hnil hne
  refine h.move (Nat.le_succ _) rfl ?_ ?_ ?_ ?_ ?_ ?_
  · intro q i l _ hserves
    rw [(h.own q i l hserves).1] at hfree
    cases hfree
  · intro i l hserves
    cases hserves
    exact ⟨FileSystem.Fs.make_dir_self _ _ _, FileSystem.Fs.make_node_next _ _ _⟩
  · intro i hfile
    cases hfile
    exact .inr ⟨rfl, Nat.lt_succ_self _⟩
  · exact fun _ hph => by cases hph
  · exact fun hfrozen _ => hm hcleared hrefused hfits hfree hfrozen
  · exact fun _ _ => hfits

theorem Inv.listen (h : r.Inv path) {pid i : Nat} (hbound : r.stage pid = .bound i) :
    (r.move pid (r.fs.setNode i (.socket true)) (.listening i)).Inv path := by
  have hserves : (r.stage pid).serves = some (i, false) := by
    rw [hbound]
    rfl
  have hown := h.own pid i false hserves
  refine h.move (Nat.le_refl _) rfl (h.own_setNode (Stage.file_of_serves hserves) _) ?_ ?_ ?_ ?_ ?_
  · intro j l hj
    cases hj
    exact ⟨hown.1, FileSystem.Fs.setNode_node_self _ _ _⟩
  · intro j hj
    cases hj
    exact .inl (Stage.file_of_serves hserves)
  · exact fun _ hph => by cases hph
  · exact fun hfrozen _ q => h.unjudged hfrozen pid q (by rw [hserves]; exact Option.some_ne_none _)
  · exact fun j hph => by cases hph

/-- A probe that does not race judges the path as it is. -/
theorem Inv.probe (h : r.Inv path) {pid : Nat} {trouble : Option Trouble} {e : Option Errno} (hidle : r.stage pid = .idle)
    (hm : r.Calm path (pid, .probe trouble)) (he : streamConnect r.fs trouble path = .error e) :
    (r.move pid r.fs (if e = some .econnrefused then .stale else .cleared)).Inv path := by
  by_cases hrefused : e = some .econnrefused
  · rw [if_pos hrefused]
    apply h.move_stage (fun i hi => by cases hi) (fun x hx => by cases hx) (fun i hi => by cases hi)
    exact fun hfrozen _ => h.none_serves hidle hm hfrozen (he.trans (congrArg _ hrefused))
  · rw [if_neg hrefused]
    exact h.move_stage (fun i hi => by cases hi) (fun x hx => by cases hx) (fun i hi => by cases hi)
      (fun _ hph => by cases hph)

/-- What is at the path of a running daemon is its own, for its cleanup to unlink. -/
theorem Inv.cleanup (h : r.Inv path) {pid i : Nat} (hrunning : r.stage pid = .running i) :
    (r.move pid (r.fs.unlink path).1 (.cleaned i)).Inv path := by
  refine h.move_unlink ?_ rfl (fun hph => by cases hph) ?_
  · rw [hrunning]
    rfl
  · intro _ q hq
    cases hserves : (r.stage q).serves with
    | none => rfl
    | some x =>
      obtain ⟨j, l⟩ := x
      have hpid := h.own pid i true (by rw [hrunning]; rfl)
      rw [(h.own q j l hserves).1, Option.some_inj] at hpid
      refine absurd (h.apart q pid j (Stage.file_of_serves hserves) ?_) hq
      rw [hrunning, hpid.1]
      rfl

/-- **Each call that does not race keeps the invariant.** -/
theorem Inv.step (hne : path ≠ []) (h : r.Inv path) {m : Nat × Call} (hm : r.Calm path m) :
    (r.step path m).1.Inv path := by
  obtain ⟨pid, call⟩ := m
  have hend : (r.move pid r.fs .ended).Inv path := by
    apply h.move_stage
    · exact fun i hi => by cases hi
    · exact fun x hx => by cases hx
    · exact fun i hi => by cases hi
    · exact fun _ hph => by cases hph
  unfold Starts.step
  dsimp only
  split
  case h_1 trouble hidle =>
    split
    · exact hend
    · exact h.probe hidle hm ‹_›
  case h_2 hstale =>
    refine h.move_unlink ?_ rfl (fun hph => by cases hph) ?_
    · rw [hstale]
      rfl
    · intro hfrozen q _
      by_contra hq
      exact h.unjudged hfrozen q pid hq hstale
  case h_3 refused hcleared =>
    split
    · exact h.bind hne hcleared hm ‹_›
    · exact hend
  case h_4 i hbound => exact h.listen hbound
  case h_5 => exact hend
  case h_6 i hlistening =>
    refine h.move_stage ?_ ?_ (fun j hph => by cases hph) (fun _ hph => by cases hph)
    · rw [hlistening]
      exact fun j hj => hj
    · rw [hlistening]
      exact fun x hx => hx
  case h_7 i err hlistening =>
    apply h.move_ended
    rw [hlistening]
    rfl
  case h_8 i hrunning => exact h.cleanup hrunning
  case h_9 =>
    split
    · exact h.move_ended ‹_›
    · exact hend
  case h_10 => exact h

/-- A start that has judged the path stale unlinks what another has bound there since. -/
theorem judged_lost {q pid i : Nat} (hbound : r.stage q = .bound i) (hstale : r.stage pid = .stale)
    (hdir : r.fs.dir path = some i) (hfrozen : r.fs.frozen path = false) :
    ¬ (run (Starts.step path) r [(q, .listen none), (q, .setup none), (pid, .unlink)]).1.Safe path := by
  have hne : pid ≠ q := by
    rintro rfl
    rw [hbound] at hstale
    cases hstale
  intro hsafe
  have hrem : (r.fs.setNode i (.socket true)).Removable path := by
    refine ⟨i, hdir, ?_, hfrozen⟩
    rw [FileSystem.Fs.setNode_node_self]
    rfl
  have hend : (run (Starts.step path) r [(q, .listen none), (q, .setup none), (pid, .unlink)]).1 =
      (r.move q (r.fs.setNode i (.socket true)) (.running i)).move pid ((r.fs.setNode i (.socket true)).drop path)
        .cleared := by
    simp [Machine.run_cons, Starts.step, hbound, hstale, move_move, move_stage_of_ne _ _ _ hne,
      FileSystem.Fs.unlink_of_removable hrem]
  rw [hend] at hsafe
  have hrunning := (hsafe.reachable q i (by rw [move_stage_of_ne _ _ _ hne.symm, move_stage_self])).1
  rw [move_fs, FileSystem.Fs.drop_dir_self] at hrunning
  cases hrunning

/-- **Each call that races can cost a daemon its socket.** -/
theorem Inv.race_lost (hne : path ≠ []) (h : r.Inv path) {m : Nat × Call} (hm : ¬ r.Calm path m) :
    ∃ ms, ¬ (run (Starts.step path) r (m :: ms)).1.Safe path := by
  obtain ⟨pid, call⟩ := m
  cases call with
  | probe trouble =>
    simp only [Calm, not_forall, not_not] at hm
    obtain ⟨hidle, rfl, hfrozen, q, i, hbound⟩ := hm
    obtain ⟨hdir, hnode⟩ := h.own q i false (by rw [hbound]; rfl)
    have hrefused : streamConnect r.fs none path = .error (some .econnrefused) := by
      refine connect_refused_iff.2 ⟨rfl, h.fits q i hbound, hne, _, FileSystem.Fs.stat_of_socket hdir hnode, ?_⟩
      simp
    have hstep : (r.step path (pid, .probe none)).1 = r.move pid r.fs .stale := by
      simp [Starts.step, hidle, hrefused]
    refine ⟨[(q, .listen none), (q, .setup none), (pid, .unlink)], ?_⟩
    rw [Machine.run_cons, hstep]
    refine judged_lost ?_ (move_stage_self r pid r.fs .stale) hdir hfrozen
    rw [move_stage_of_ne, hbound]
    rintro rfl
    rw [hbound] at hidle
    cases hidle
  | bind refused =>
    simp only [Calm, not_forall, not_not] at hm
    obtain ⟨hcleared, rfl, hfits, hfree, hfrozen, q, hstale⟩ := hm
    have hbind : listenerBind r.fs none path = .ok (r.fs.make path (.socket false)) :=
      listenerBind_ok_iff.2 ⟨rfl, hfits, .inr ⟨hne, hfree, rfl⟩⟩
    have hstep : (r.step path (pid, .bind none)).1 = r.move pid (r.fs.make path (.socket false)) (.bound r.fs.next) := by
      simp [Starts.step, hcleared, hbind]
    refine ⟨[(pid, .listen none), (pid, .setup none), (q, .unlink)], ?_⟩
    rw [Machine.run_cons, hstep]
    refine judged_lost (move_stage_self _ _ _ _) ?_ (FileSystem.Fs.make_dir_self _ _ _) hfrozen
    rw [move_stage_of_ne, hstale]
    rintro rfl
    rw [hcleared] at hstale
    cases hstale
  | _ => exact absurd trivial hm

/-- The calls of one start, each of which is made or not by where the ones before it have led. -/
def startCalls (a : ListenAns) : List Call :=
  [.probe a.probe, .unlink, .bind a.bind, .listen a.listen, .setup (a.nonblocking <|> a.chmod)]

/-- The calls from `bind` on are the rest of `listen_unix`. -/
theorem solo_bind (hne : path ≠ []) (a : ListenAns) {pid : Nat} (hcleared : r.stage pid = .cleared) :
    (run (Starts.step path) r
        ([.bind a.bind, .listen a.listen, .setup (a.nonblocking <|> a.chmod)].map (Prod.mk pid))).1 =
      r.move pid (bindAt r.fs a path).1
        (if (bindAt r.fs a path).2 = .ok () then .running r.fs.next else .ended) := by
  rw [bindAt]
  cases hbind : listenerBind r.fs a.bind path with
  | error e => simp [Machine.run_cons, Starts.step, hcleared, hbind]
  | ok bound =>
    obtain ⟨-, -, ⟨hnil, -⟩ | ⟨-, -, rfl⟩⟩ := listenerBind_ok_iff.1 hbind
    · exact absurd hnil hne
    simp only [ListenAns.setup, if_neg hne]
    cases hlisten : a.listen with
    | some e => simp [Machine.run_cons, Starts.step, hcleared, hbind, move_move]
    | none =>
      cases hsetup : (a.nonblocking <|> a.chmod) with
      | some e => simp [Machine.run_cons, Starts.step, hcleared, hbind, move_move, FileSystem.Fs.make_setNode]
      | none => simp [Machine.run_cons, Starts.step, hcleared, hbind, move_move, FileSystem.Fs.make_setNode, listenAt_make]

/-- **One start by itself is `listen_unix`.** -/
theorem solo_start (hne : path ≠ []) (a : ListenAns) {pid : Nat} (hidle : r.stage pid = .idle) :
    (run (Starts.step path) r ((startCalls a).map (Prod.mk pid))).1 =
      r.move pid (listenUnix r.fs a path).1
        (if (listenUnix r.fs a path).2 = .ok () then .running r.fs.next else .ended) := by
  cases hconn : streamConnect r.fs a.probe path with
  | ok stream => simp [startCalls, Machine.run_cons, Starts.step, hidle, hconn, listenUnix]
  | error e =>
    have hprobe : (run (Starts.step path) r [(pid, .probe a.probe), (pid, .unlink)]).1 =
        r.move pid (cleared r.fs a.probe path) .cleared := by
      by_cases he : e = some .econnrefused
      · simp [Machine.run_cons, Starts.step, hidle, hconn, he, cleared, move_move]
      · simp [Machine.run_cons, Starts.step, hidle, hconn, he, cleared]
    have hsplit : (startCalls a).map (Prod.mk pid) = [(pid, .probe a.probe), (pid, .unlink)] ++
        [.bind a.bind, .listen a.listen, .setup (a.nonblocking <|> a.chmod)].map (Prod.mk pid) := rfl
    rw [hsplit, Machine.run_append, hprobe, listenUnix_of_error hconn]
    dsimp only
    rw [solo_bind hne a (move_stage_self _ _ _ _), move_move, move_fs, cleared_next]

theorem step_stage_of_ne (r : Starts) {m : Nat × Call} {q : Nat} (hq : q ≠ m.1) :
    (r.step path m).1.stage q = r.stage q := by
  unfold Starts.step
  dsimp only
  split
  case h_1 | h_3 => split <;> exact move_stage_of_ne _ _ _ hq
  case h_9 => split <;> exact move_stage_of_ne _ _ _ hq
  case h_10 => rfl
  all_goals exact move_stage_of_ne _ _ _ hq

/-- A start does not race while no other has begun. -/
theorem solo_calm {pid : Nat} : ∀ (calls : List Call) (r : Starts), (∀ q, q ≠ pid → r.stage q = .idle) →
    Along (Starts.step path) (Calm path) r (calls.map (Prod.mk pid))
  | [], _, _ => trivial
  | call :: calls, r, halone => by
    refine ⟨?_, solo_calm calls _ (fun q hq => (step_stage_of_ne r hq).trans (halone q hq))⟩
    have hothers : ∀ q, r.stage q = .idle ∨ r.stage q = r.stage pid := by
      intro q
      by_cases hq : q = pid
      · exact .inr (by rw [hq])
      · exact .inl (halone q hq)
    cases call with
    | probe trouble =>
      intro hidle _ _ q i hbound
      rcases hothers q with hq | hq <;> rw [hq] at hbound
      · cases hbound
      · rw [hidle] at hbound
        cases hbound
    | bind refused =>
      intro hcleared _ _ _ _ q hstale
      rcases hothers q with hq | hq <;> rw [hq] at hstale
      · cases hstale
      · rw [hcleared] at hstale
        cases hstale
    | _ => trivial

/-- **Starts that do not race leave every running daemon its socket**, and a call that races after such a run can lead to
one that has lost it. -/
theorem calm_starts_safe (sess : Session) (r : Starts) (hinit : r.Initial sess.sockname) (ms : List (Nat × Call))
    (hcalm : Along (Starts.step sess.sockname) (Calm sess.sockname) r ms) :
    (run (Starts.step sess.sockname) r ms).1.Safe sess.sockname ∧
      ∀ m, ¬ (run (Starts.step sess.sockname) r ms).1.Calm sess.sockname m →
        ∃ more, ¬ (run (Starts.step sess.sockname) r (ms ++ m :: more)).1.Safe sess.sockname := by
  have hinv : (run (Starts.step sess.sockname) r ms).1.Inv sess.sockname :=
    hcalm.inv (fun _ _ h hm => h.step sess.sockname_ne hm) hinit.inv
  refine ⟨hinv.safe, fun m hm => ?_⟩
  obtain ⟨more, hmore⟩ := hinv.race_lost sess.sockname_ne hm
  refine ⟨more, ?_⟩
  rw [Machine.run_append]
  exact hmore

/-- A path with a socket that no one listens on, before any start. -/
def leftOver (path : Str) : Starts := ⟨fileAt path (.socket false), fun _ => .idle⟩

theorem leftOver_initial (path : Str) : (leftOver path).Initial path where
  stages _ := .inl rfl
  safe := ⟨fun _ _ _ _ h => (by cases h), fun _ _ h => (by cases h)⟩

def sessS : Session := .named ⟨some "/h".toList, 1⟩ "ztch".toList 1024 "s".toList

/-- Two starts of `s` after a crash: the second unlinks, as stale, what the first listens on by now. -/
theorem starts_lose_socket : ¬ ∀ (sess : Session) (r : Starts) (ms : List (Nat × Call)), r.Initial sess.sockname →
    (run (Starts.step sess.sockname) r ms).1.Safe sess.sockname := by
  intro h
  have hsafe := h sessS (leftOver sessS.sockname) [(0, .probe none), (1, .probe none), (0, .unlink), (0, .bind none),
    (0, .listen none), (0, .setup none), (1, .unlink)] (leftOver_initial _)
  have hlost := (hsafe.reachable 0 1 (by decide)).1
  exact absurd hlost (by decide)

/-- One start over the stale socket, its daemon, and then another start. -/
theorem later_start_refused :
    (run (Starts.step sessS.sockname) (leftOver sessS.sockname)
      ((startCalls ⟨none, none, none, none, none⟩).map (Prod.mk 0) ++ [(1, .probe none)])).1.Safe sessS.sockname := by
  refine (calm_starts_safe sessS _ (leftOver_initial _) _ ?_).1
  rw [Machine.along_append]
  refine ⟨solo_calm _ _ (fun _ _ => rfl), ?_, trivial⟩
  intro _ _ _ pid i hbound
  rw [solo_start sessS.sockname_ne _ rfl] at hbound
  by_cases hpid : pid = 0
  · rw [hpid, move_stage_self] at hbound
    split at hbound <;> cases hbound
  · rw [move_stage_of_ne _ _ _ hpid] at hbound
    cases hbound

end Starts

end Zatch
