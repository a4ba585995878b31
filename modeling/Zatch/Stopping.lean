import Zatch.Afterwards
/-!
# Stopping — `kill`, while the session goes on and ends (`Session::kill`, `send_kill`, `session_gone`)

`kill` asks the daemon to signal its child and looks, every 100 ms, whether the session's socket is gone; the daemon goes on
with its life in between.  What it comes to is true of the session: when it says stopped or killed the daemon has ended, its
log closed, and when it gives up the daemon was there at each of its looks, or its socket would not go (`kill_tells`).
-/
namespace Zatch

open Machine (run Along)

def sighup : Nat := 1

def sigkill : Nat := 9

def enoent : Nat := 2

def econnrefused : Nat := 111

/-- `ProtocolError::as_errno`. -/
def ProtocolError.asErrno : ProtocolError → Nat
  | .eof => 0
  | .wouldBlock => 11
  | .io e => e

/-- What `kill` says at its end. -/
inductive KillMsg
  | doesNotExist
  | notRunning
  | failed (errno : Nat)
  | stopped
  | killed
  | didNotStop
deriving DecidableEq, Repr

/-- The text of a message; what the system says of an error number is not the program's. -/
def KillMsg.text (strerror : Nat → Str) (sockname name : Str) : KillMsg → Str
  | .doesNotExist => "session '".toList ++ name ++ "' does not exist".toList
  | .notRunning => "session '".toList ++ name ++ "' is not running".toList
  | .failed e => sockname ++ ": ".toList ++ strerror e
  | .stopped => "session '".toList ++ name ++ "' stopped".toList
  | .killed => "session '".toList ++ name ++ "' killed".toList
  | .didNotStop => "session '".toList ++ name ++ "' did not stop".toList

/-- `status` prints its message, `info` unless the command is quiet; either records it. -/
inductive KillDid
  | signalled (sig : Nat) (res : Except Nat Unit)
  | slept (ms : Nat)
  | looked (gone : Bool)
  | status (level : LogLevel) (msg : KillMsg)
  | info (msg : KillMsg)

/-- Where `kill` is: before its first signal, in one of its loops with some rounds left, or at its end. -/
inductive KillAt
  | first
  | waits (left : Nat) (again : Bool)
  | returned (code : Nat)
deriving DecidableEq, Repr

structure Killing where
  force : Bool
  stage : KillAt

/-- The number of an error. -/
def Errno.raw : Errno → Nat
  | .eintr => 4
  | .eagain => 11
  | .other code => code

/-- What the system answers a step of `kill`, besides what the files say. -/
structure KillAns where
  trouble : Option Trouble
  /-- the answers to `write_to` -/
  writes : List WriteRet
  /-- an error of `metadata` that is not the file's doing -/
  stat : Option { e : Errno // e ≠ .enoent }

/-- `send_kill` -/
def sendKill (fs : Fs) (sockname : Str) (sig : Nat) (a : KillAns) : Except Nat Unit :=
  match connectSocket fs a.trouble sockname with
  | .error e => .error e.raw
  | .ok _ =>
    match ((Packet.encode .kill (UInt8.ofNat sig)).writeTo a.writes).res with
    | .ok () => .ok ()
    | .error e => .error e.asErrno

/-- `session_gone` -/
def sessionGone (fs : Fs) (sockname : Str) (a : KillAns) : Bool :=
  match a.stat with
  | some _ => false
  | none =>
    match fs.stat sockname with
    | .error .noEntry => true
    | _ => false

namespace Killing

def firstSig (k : Killing) : Nat := if k.force then sigkill else sighup

def firstWait (k : Killing) : Nat := if k.force then 10 else 1

def firstMsg (k : Killing) : KillMsg := if k.force then .killed else .stopped

def refusal (e : Nat) : KillMsg :=
  if e = enoent then .doesNotExist else if e = econnrefused then .notRunning else .failed e

/-- The next thing `kill` does: a signal, or a look after 100 ms. -/
def step (k : Killing) (fs : Fs) (sockname : Str) (a : KillAns) : Killing × List KillDid :=
  match k.stage with
  | .first =>
    match sendKill fs sockname k.firstSig a with
    | .error e => ({ k with stage := .returned 1 }, [.signalled k.firstSig (.error e), .status .error (refusal e)])
    | .ok () => ({ k with stage := .waits k.firstWait false }, [.signalled k.firstSig (.ok ())])
  | .waits (n + 1) again =>
    if sessionGone fs sockname a then
      ({ k with stage := .returned 0 },
        [.slept 100, .looked true, if again then .status .info .killed else .info k.firstMsg])
    else ({ k with stage := .waits n again }, [.slept 100, .looked false])
  | .waits 0 again =>
    if k.force ∨ again then ({ k with stage := .returned 1 }, [.status .error .didNotStop])
    else ({ k with stage := .waits 3 true }, [.signalled sigkill (sendKill fs sockname sigkill a)])
  | .returned _ => (k, [])

/-- How often `kill` looks, when it looks to the end. -/
def rounds (k : Killing) : Nat := if k.force then 10 else 4

/-- How many steps `kill` has still to make, at most. -/
def toGoAt (force : Bool) : KillAt → Nat
  | .first => if force then 12 else 7
  | .waits n again => if force ∨ again then n + 1 else n + 5
  | .returned _ => 0

def toGo (k : Killing) : Nat := toGoAt k.force k.stage

end Killing

/-- A session's daemon, all it has done, and a `kill` of the session. -/
structure Stopping where
  living : Living
  fx : List Effect
  kill : Killing

inductive Stop
  | turn (k : SessionDaemon.TurnAns)
  | kill (a : KillAns)

def Stop.isKill : Stop → Bool
  | .kill _ => true
  | .turn _ => false

namespace Stopping

/-- The session's socket is at this name. -/
def sockname (s : Stopping) : Str := s.living.d.sockname.toList

/-- The files, from what they were at first, as the daemon leaves them; its log is the file of this number. -/
def files (file : Nat) (fs : Fs) (s : Stopping) : Fs := filesNow file fs s.sockname s.fx false

def step (file : Nat) (fs : Fs) (s : Stopping) : Stop → Stopping × List KillDid
  | .turn k => ({ s with living := (s.living.step k).1, fx := s.fx ++ (s.living.step k).2 }, [])
  | .kill a =>
    let o := s.kill.step (s.files file fs) s.sockname a
    ({ s with kill := o.1 }, o.2)

def begin (d : SessionDaemon) (force : Bool) : Stopping := ⟨⟨d, .again⟩, [], ⟨force, .first⟩⟩

end Stopping

/-- The looks among what was done, and what they saw. -/
def looks (out : List KillDid) : List Bool :=
  out.filterMap (fun | .looked gone => some gone | _ => none)

/-- The signals asked for. -/
def signals (out : List KillDid) : List Nat :=
  out.filterMap (fun | .signalled sig _ => some sig | _ => none)

/-- What it has said. -/
def said (out : List KillDid) : List KillMsg :=
  out.filterMap (fun | .status _ msg => some msg | .info msg => some msg | _ => none)

/-- The texts of it. -/
def killSays (strerror : Nat → Str) (sockname : String) (out : List KillDid) : List Str :=
  (said out).map (KillMsg.text strerror sockname.toList (sessionShortname sockname).toList)

/-- How long it has slept, in ms. -/
def slept (out : List KillDid) : Nat :=
  (out.filterMap (fun | .slept ms => some ms | _ => none)).sum

theorem looks_append (out more : List KillDid) : looks (out ++ more) = looks out ++ looks more := List.filterMap_append

theorem signals_append (out more : List KillDid) : signals (out ++ more) = signals out ++ signals more := List.filterMap_append

theorem said_append (out more : List KillDid) : said (out ++ more) = said out ++ said more := List.filterMap_append

theorem slept_append (out more : List KillDid) : slept (out ++ more) = slept out + slept more := by
  rw [slept, List.filterMap_append, List.sum_append]
  rfl

/-! ## What a `kill` can have done -/

/-- Where `kill` is, with what it has seen at its looks, the signals it has asked for and what it has said. -/
inductive KillRan (k : Killing) : KillAt → List Bool → List Nat → List KillMsg → Prop
  | first : KillRan k .first [] [] []
  | waits (n : Nat) (hn : n ≤ k.firstWait) :
      KillRan k (.waits n false) (List.replicate (k.firstWait - n) false) [k.firstSig] []
  | again (n : Nat) (hforce : k.force = false) (hn : n ≤ 3) :
      KillRan k (.waits n true) (List.replicate (4 - n) false) [sighup, sigkill] []
  | refused (e : Nat) : KillRan k (.returned 1) [] [k.firstSig] [Killing.refusal e]
  | stopped (m : Nat) (hm : m < k.firstWait) :
      KillRan k (.returned 0) (List.replicate m false ++ [true]) [k.firstSig] [k.firstMsg]
  | killed (m : Nat) (hforce : k.force = false) (hm : m + 1 < 4) :
      KillRan k (.returned 0) (List.replicate (m + 1) false ++ [true]) [sighup, sigkill] [.killed]
  | gaveUp (sigs : List Nat) (hsigs : sigs = if k.force then [sigkill] else [sighup, sigkill]) :
      KillRan k (.returned 1) (List.replicate k.rounds false) sigs [.didNotStop]

theorem KillRan.of_force {k k' : Killing} {stage : KillAt} {seen : List Bool} {sigs : List Nat}
    {msgs : List KillMsg} (h : KillRan k stage seen sigs msgs) (hforce : k'.force = k.force) : KillRan k' stage seen sigs msgs := by
  have hwait : k'.firstWait = k.firstWait := by rw [Killing.firstWait, hforce, Killing.firstWait]
  have hsig : k'.firstSig = k.firstSig := by rw [Killing.firstSig, hforce, Killing.firstSig]
  have hmsg : k'.firstMsg = k.firstMsg := by rw [Killing.firstMsg, hforce, Killing.firstMsg]
  have hrounds : k'.rounds = k.rounds := by rw [Killing.rounds, hforce, Killing.rounds]
  cases h with
  | first => exact .first
  | waits n hn => rw [← hwait, ← hsig] at *; exact .waits n hn
  | again n hf hn => exact .again n (hforce.trans hf) hn
  | refused e => rw [← hsig]; exact .refused e
  | stopped m hm => rw [← hwait, ← hsig, ← hmsg] at *; exact .stopped m hm
  | killed m hf hm => exact .killed m (hforce.trans hf) hm
  | gaveUp sigs hsigs => rw [← hrounds]; rw [← hforce] at hsigs; exact .gaveUp sigs hsigs

theorem Killing.step_force (k : Killing) (fs : Fs) (sockname : Str) (a : KillAns) :
    (k.step fs sockname a).1.force = k.force := by
  unfold Killing.step
  split
  · split <;> rfl
  · split <;> rfl
  · split <;> rfl
  · rfl

theorem replicate_succ_sub {total n : Nat} (h : n + 1 ≤ total) :
    List.replicate (total - (n + 1)) false ++ [false] = List.replicate (total - n) false := by
  rw [← List.replicate_succ']
  congr 1
  omega

/-- **A step of `kill`**: a signal, a look that is false and leaves it waiting, one that is true and ends it, or an end. -/
theorem Killing.step_ran {k : Killing} {seen : List Bool} {sigs : List Nat} {msgs : List KillMsg}
    (h : KillRan k k.stage seen sigs msgs) (fs : Fs) (sockname : Str) (a : KillAns) :
    KillRan k (k.step fs sockname a).1.stage (seen ++ looks (k.step fs sockname a).2)
      (sigs ++ signals (k.step fs sockname a).2) (msgs ++ said (k.step fs sockname a).2) := by
  unfold Killing.step
  generalize hs : k.stage = stage at h
  cases h with
  | first =>
    simp only
    split
    · exact .refused _
    · have hran := KillRan.waits (k := k) k.firstWait (Nat.le_refl _)
      rw [Nat.sub_self] at hran
      exact hran
  | waits n hn =>
    cases n with
    | zero =>
      simp only [Nat.sub_zero, Bool.false_eq_true, or_false]
      split
      · rename_i hforce
        have hran := KillRan.gaveUp (k := k) [k.firstSig] (by rw [firstSig, if_pos hforce, if_pos hforce])
        rw [show k.firstWait = k.rounds by rw [firstWait, rounds, if_pos hforce, if_pos hforce]]
        simpa [looks, signals, said] using hran
      · rename_i hforce
        have hno : k.force = false := Bool.eq_false_iff.2 hforce
        have hran := KillRan.again (k := k) 3 hno (Nat.le_refl _)
        simpa [looks, signals, said, firstWait, firstSig, hno] using hran
    | succ n =>
      simp only
      split
      · have hran := KillRan.stopped (k := k) (k.firstWait - (n + 1)) (by omega)
        simpa [looks, signals, said] using hran
      · have hran := KillRan.waits (k := k) n (by omega)
        rw [← replicate_succ_sub hn] at hran
        simpa [looks, signals, said] using hran
  | again n hforce hn =>
    cases n with
    | zero =>
      simp only [or_true, if_true]
      have hran := KillRan.gaveUp (k := k) [sighup, sigkill] (by rw [hforce]; rfl)
      rw [show k.rounds = 4 - 0 by rw [rounds, hforce]; rfl] at hran
      simpa [looks, signals, said] using hran
    | succ n =>
      simp only
      split
      · have hran := KillRan.killed (k := k) (3 - (n + 1)) hforce (by omega)
        rw [show 3 - (n + 1) + 1 = 4 - (n + 1) by omega] at hran
        simpa [looks, signals, said] using hran
      · have hran := KillRan.again (k := k) n hforce (by omega)
        rw [← replicate_succ_sub (show n + 1 ≤ 4 by omega)] at hran
        simpa [looks, signals, said] using hran
  | refused e => simpa [looks, signals, said, hs] using KillRan.refused (k := k) e
  | stopped m hm => simpa [looks, signals, said, hs] using KillRan.stopped (k := k) m hm
  | killed m hforce hm => simpa [looks, signals, said, hs] using KillRan.killed (k := k) m hforce hm
  | gaveUp sigs hsigs => simpa [looks, signals, said, hs] using KillRan.gaveUp (k := k) sigs hsigs

theorem KillRan.signals_begin {k : Killing} {stage : KillAt} {seen : List Bool} {sigs : List Nat}
    {msgs : List KillMsg} (h : KillRan k stage seen sigs msgs) : sigs <+: if k.force then [sigkill] else [sighup, sigkill] := by
  have hone : [k.firstSig] <+: if k.force then [sigkill] else [sighup, sigkill] := by
    unfold Killing.firstSig
    split
    · exact List.prefix_refl _
    · exact ⟨[sigkill], rfl⟩
  cases h with
  | first => exact List.nil_prefix
  | waits n hn => exact hone
  | again n hforce hn => rw [hforce]; exact List.prefix_refl _
  | refused e => exact hone
  | stopped m hm => exact hone
  | killed m hforce hm => rw [hforce]; exact List.prefix_refl _
  | gaveUp sigs hsigs => exact hsigs ▸ List.prefix_refl sigs

/-- The second signal comes after a look that was false. -/
theorem KillRan.looked_first {k : Killing} {stage : KillAt} {seen : List Bool} {sigs : List Nat}
    {msgs : List KillMsg} (h : KillRan k stage seen sigs msgs) (htwo : sigs = [sighup, sigkill]) : ∃ rest, seen = false :: rest := by
  have hcons : ∀ n, 0 < n → ∃ rest, List.replicate n false = false :: rest := by
    intro n hn
    cases n with
    | zero => cases hn
    | succ n => exact ⟨_, rfl⟩
  cases h with
  | first => cases htwo
  | waits n hn => cases (List.cons.inj htwo).2
  | again n hforce hn => exact hcons _ (by omega)
  | refused e => cases (List.cons.inj htwo).2
  | stopped m hm => cases (List.cons.inj htwo).2
  | killed m hforce hm => exact ⟨_, rfl⟩
  | gaveUp sigs hsigs =>
    apply hcons _
    unfold Killing.rounds
    split <;> decide

theorem KillRan.length_le {k : Killing} {stage : KillAt} {seen : List Bool} {sigs : List Nat}
    {msgs : List KillMsg} (h : KillRan k stage seen sigs msgs) :
    seen.length ≤ k.rounds := by
  have hwait : k.firstWait ≤ k.rounds := by
    unfold Killing.firstWait Killing.rounds
    split <;> decide
  cases h with
  | first => exact Nat.zero_le _
  | waits n hn => rw [List.length_replicate]; omega
  | again n hforce hn => rw [List.length_replicate, Killing.rounds, hforce]; exact Nat.sub_le _ _
  | refused e => exact Nat.zero_le _
  | stopped m hm => rw [List.length_append, List.length_replicate, List.length_singleton]; omega
  | killed m hforce hm =>
    rw [List.length_append, List.length_replicate, List.length_singleton, Killing.rounds, hforce]
    exact hm
  | gaveUp sigs hsigs => rw [List.length_replicate]

/-- With no step to make `kill` has returned. -/
theorem KillRan.returned {k : Killing} {stage : KillAt} {seen : List Bool} {sigs : List Nat}
    {msgs : List KillMsg} (h : KillRan k stage seen sigs msgs) (hgo : Killing.toGoAt k.force stage = 0) :
    ∃ code, code ≤ 1 ∧ stage = .returned code := by
  cases h with
  | refused e => exact ⟨1, Nat.le_refl _, rfl⟩
  | stopped m hm => exact ⟨0, Nat.zero_le _, rfl⟩
  | killed m hforce hm => exact ⟨0, Nat.zero_le _, rfl⟩
  | gaveUp sigs hsigs => exact ⟨1, Nat.le_refl _, rfl⟩
  | first =>
    simp only [Killing.toGoAt] at hgo
    split at hgo <;> omega
  | waits n hn =>
    simp only [Killing.toGoAt] at hgo
    split at hgo <;> omega
  | again n hforce hn =>
    simp only [Killing.toGoAt] at hgo
    split at hgo <;> omega

/-- It says one thing, at its end, and says that the session has stopped or was killed when it returns 0. -/
theorem KillRan.said_one {k : Killing} {seen : List Bool} {sigs : List Nat} {msgs : List KillMsg} {code : Nat}
    (h : KillRan k (.returned code) seen sigs msgs) : ∃ msg, msgs = [msg] ∧ (code = 0 ↔ msg = .stopped ∨ msg = .killed) := by
  cases h with
  | refused e =>
    refine ⟨_, rfl, ?_⟩
    unfold Killing.refusal
    split
    · simp
    · split <;> simp
  | stopped m hm =>
    refine ⟨_, rfl, ?_⟩
    unfold Killing.firstMsg
    split <;> simp
  | killed m hforce hm => exact ⟨_, rfl, by simp⟩
  | gaveUp sigs hsigs => exact ⟨_, rfl, by simp⟩

/-- `kill` ends by a look that is true, or after a false one each time. -/
theorem Killing.step_returned {k : Killing} {fs : Fs} {sockname : Str} {a : KillAns}
    (h : (k.step fs sockname a).1.stage = .returned 0) : k.stage = .returned 0 ∨ sessionGone fs sockname a = true := by
  unfold Killing.step at h
  split at h
  · split at h <;> cases h
  · split at h
    · exact .inr ‹_›
    · cases h
  · split at h <;> cases h
  · exact .inl h

/-- It sleeps 100 ms before each look. -/
theorem Killing.step_slept (k : Killing) (fs : Fs) (sockname : Str) (a : KillAns) :
    slept (k.step fs sockname a).2 = 100 * (looks (k.step fs sockname a).2).length := by
  unfold Killing.step
  split
  · split <;> rfl
  · split
    · split <;> rfl
    · rfl
  · split <;> rfl
  · rfl

theorem Killing.step_looks (k : Killing) (fs : Fs) (sockname : Str) (a : KillAns) :
    ∀ b ∈ looks (k.step fs sockname a).2, b = sessionGone fs sockname a := by
  unfold Killing.step
  split
  · split <;> simp [looks]
  · split
    · rename_i hgone
      rw [hgone]
      split <;> simp [looks]
    · rename_i hgone
      simp [looks, Bool.eq_false_iff.2 hgone]
  · split <;> simp [looks]
  · simp [looks]

/-- Each step of `kill` brings it nearer to its end. -/
theorem Killing.step_toGo (k : Killing) (fs : Fs) (sockname : Str) (a : KillAns) :
    (k.step fs sockname a).1.toGo ≤ k.toGo - 1 := by
  rw [toGo, toGo, k.step_force fs sockname a]
  cases hs : k.stage with
  | first =>
    simp only [step, hs]
    split
    · exact Nat.zero_le _
    · simp only [toGoAt, firstWait, Bool.false_eq_true, or_false]
      split <;> omega
  | waits n again =>
    cases n with
    | zero =>
      simp only [step, hs]
      split
      · exact Nat.zero_le _
      · rename_i hno
        simp only [toGoAt, hno, or_true, if_true, if_false]
        omega
    | succ n =>
      simp only [step, hs]
      split
      · exact Nat.zero_le _
      · simp only [toGoAt]
        split <;> omega
  | returned code =>
    simp only [step, hs]
    exact Nat.zero_le _

namespace Stopping

/-- The session's socket is there, and its daemon listens at it. -/
structure Listens (fs : Fs) (sockname : Str) (sock : Nat) : Prop where
  socket : fs.dir sockname = some sock
  listens : fs.node sock = .socket true

/-- While the daemon is there, the name is what it was. -/
theorem files_of_alive {sockname : String} {s : Stopping} (h : Ends sockname s.living s.fx) (file : Nat) (fs : Fs)
    (hex : ¬ ∃ n, s.living.next = .exited n) :
    FileSystem.Fs.After fs (s.files file fs) ∧ (s.files file fs).dir sockname.toList = fs.dir sockname.toList := by
  have halive := h.alive (fun n hn => hex ⟨n, hn⟩)
  have hfate : fate s.fx false = .there := by
    rw [fate, List.any_eq_false.2 (fun e he => Bool.eq_false_iff.1 (halive e he))]
    rfl
  rw [files, filesNow, hfate]
  obtain ⟨hafter, hdir⟩ := filesAfter_of_not_removes file s.fx fs halive
  exact ⟨hafter, by rw [hdir]⟩

/-- When it has ended, the name has been removed, or was left without a listener. -/
theorem files_of_exited {sockname : String} {s : Stopping} (h : Ends sockname s.living s.fx) (file : Nat) (fs : Fs) {n : Nat}
    (hn : s.living.next = .exited n) :
    ∃ was : Fs, FileSystem.Fs.After fs was ∧ was.dir = fs.dir ∧
      s.files file fs = listenAt (was.unlink sockname.toList).1 sockname.toList false := by
  obtain ⟨-, before, hfx, hbefore⟩ := h.ended n hn
  obtain ⟨hafter, hdir⟩ := filesAfter_of_not_removes file before fs hbefore
  refine ⟨filesAfter file fs before, hafter, hdir, ?_⟩
  have hname : s.sockname = sockname.toList := congrArg String.toList h.name
  have hfate : fate s.fx false = .ended := by
    rw [fate, hfx, List.any_append]
    exact if_pos (Bool.or_true _)
  have hlast : filesAfter file fs s.fx = ((filesAfter file fs before).unlink sockname.toList).1 := by
    rw [hfx, filesAfter, List.foldl_append]
    rfl
  rw [files, filesNow, hfate, hname, hlast]

/-- **What a look sees**: the name is gone when the daemon has ended and the directory let it go. -/
theorem sessionGone_iff {sockname : String} {file : Nat} {fs : Fs} {sock : Nat} (hfs : Listens fs sockname.toList sock)
    {s : Stopping} (h : Ends sockname s.living s.fx) (a : KillAns) :
    sessionGone (s.files file fs) s.sockname a = true ↔
      (∃ n, s.living.next = .exited n) ∧ fs.frozen sockname.toList = false ∧ a.stat = none := by
  have hname : s.sockname = sockname.toList := congrArg String.toList h.name
  cases hstat : a.stat with
  | some e => simp [sessionGone, hstat]
  | none =>
    simp only [sessionGone, hstat, and_true, hname]
    by_cases hex : ∃ n, s.living.next = .exited n
    · obtain ⟨n, hn⟩ := hex
      obtain ⟨was, hafter, hdir, hfiles⟩ := files_of_exited h file fs hn
      have hsock : was.dir sockname.toList = some sock := by
        rw [hdir]
        exact hfs.socket
      have hrem : was.Removable sockname.toList ↔ fs.frozen sockname.toList = false := by
        rw [hafter.removable_iff hdir]
        constructor
        · rintro ⟨-, -, -, hfrozen⟩
          exact hfrozen
        · intro hfrozen
          refine ⟨sock, hfs.socket, ?_, hfrozen⟩
          rw [hfs.listens]
          rfl
      rw [hfiles, and_iff_right ⟨n, hn⟩, ← hrem]
      by_cases hr : was.Removable sockname.toList
      · -- the name is gone
        rw [FileSystem.Fs.unlink_of_removable hr, listenAt, FileSystem.Fs.drop_dir_self]
        have hstat := FileSystem.Fs.stat_of_look_none
          (FileSystem.Fs.look_eq_none_iff.2 (FileSystem.Fs.drop_dir_self was (os sockname.toList)))
        simp only [hstat, hr]
      · -- the socket is left, without its listener
        rw [FileSystem.Fs.unlink_of_not_removable hr, listenAt, hsock]
        have hstat := FileSystem.Fs.stat_of_socket (p := os sockname.toList)
          (show (was.setNode sock (.socket false)).dir _ = some sock from hsock) (FileSystem.Fs.setNode_node_self _ _ _)
        simp [hstat, hr]
    · obtain ⟨hafter, hdir⟩ := files_of_alive h file fs hex
      have hstat := FileSystem.Fs.stat_of_socket (hdir.trans hfs.socket)
        (hafter.socket_of_old _ _ (fs.dir_lt _ _ hfs.socket) hfs.listens)
      simp [hstat, hex]

/-- What has come of a `kill` and a life: the life ends as lives do, `kill` is where its looks and signals have brought it, and
when it has returned 0 it has seen the socket gone. -/
structure Tells (sockname : String) (force : Bool) (fs : Fs) (s : Stopping) (out : List KillDid) : Prop where
  ends : Ends sockname s.living s.fx
  force : s.kill.force = force
  ran : KillRan s.kill s.kill.stage (looks out) (signals out) (said out)
  slept : slept out = 100 * (looks out).length
  zero : s.kill.stage = .returned 0 → (∃ n, s.living.next = .exited n) ∧ fs.frozen sockname.toList = false

section
variable {sockname : String} {force : Bool} {file : Nat} {fs : Fs} {sock : Nat}

theorem Tells.step (hfs : Listens fs sockname.toList sock) {s : Stopping} {out : List KillDid}
    (h : Tells sockname force fs s out) (ev : Stop) :
    Tells sockname force fs (s.step file fs ev).1 (out ++ (s.step file fs ev).2) := by
  cases ev with
  | turn k =>
    simp only [Stopping.step, List.append_nil]
    refine ⟨h.ends.step k, h.force, h.ran, h.slept, fun hzero => ?_⟩
    obtain ⟨⟨n, hn⟩, hfrozen⟩ := h.zero hzero
    exact ⟨⟨n, by rw [Living.step, hn]; exact hn⟩, hfrozen⟩
  | kill a =>
    simp only [Stopping.step]
    have hforce := s.kill.step_force (s.files file fs) s.sockname a
    refine ⟨h.ends, hforce.trans h.force, ?_, ?_, fun hzero => ?_⟩
    · rw [looks_append, signals_append, said_append]
      exact (Killing.step_ran h.ran (s.files file fs) s.sockname a).of_force hforce
    · rw [slept_append, looks_append, List.length_append, h.slept, s.kill.step_slept]
      omega
    · rcases Killing.step_returned hzero with hold | hgone
      · exact h.zero hold
      · obtain ⟨hex, hfrozen, -⟩ := (sessionGone_iff hfs h.ends a).1 hgone
        exact ⟨hex, hfrozen⟩

theorem tells_run (d : SessionDaemon) (hfs : Listens fs d.sockname.toList sock) (evs : List Stop) :
    Tells d.sockname force fs (run (step file fs) (begin d force) evs).1 (run (step file fs) (begin d force) evs).2 := by
  show Tells d.sockname force fs _ ([] ++ (run (step file fs) (begin d force) evs).2)
  refine Along.history (P := fun _ _ => True) (R := Tells d.sockname force fs) (fun _ ev _ hs _ => hs.step hfs ev) ?_
    (Machine.along_of_forall evs _ (fun _ _ _ => trivial))
  exact ⟨⟨rfl, (fun _ e he => by cases he), fun n h => by cases h⟩, rfl, .first, rfl, fun h => by cases h⟩

theorem toGo_run : ∀ (evs : List Stop) (s : Stopping),
    (run (step file fs) s evs).1.kill.toGo ≤ s.kill.toGo - evs.countP Stop.isKill
  | [], s => Nat.le_refl _
  | ev :: evs, s => by
    have ih := toGo_run evs (s.step file fs ev).1
    rw [Machine.run_cons, List.countP_cons]
    cases ev with
    | turn k => exact ih
    | kill a =>
      have hstep : ((s.step file fs (.kill a)).1).kill.toGo ≤ s.kill.toGo - 1 :=
        s.kill.step_toGo (s.files file fs) s.sockname a
      simp only [Stop.isKill, if_true]
      omega

end

/-- **What `kill` comes to is true of the session**, in every order of its steps and the daemon's and whatever either is
answered: returning 0 it has seen the end, the log closed and the socket removed as the daemon's last; returning 1 it was
refused at once, or saw the socket at each of its four looks (ten of a forced one).  A look finds the socket gone exactly when
the daemon has ended, its directory let the name go and the look is answered.  It looks after 100 ms each, and kills unforced
only a session that was there at the first look.  It returns after twelve steps at most, and says what it returns. -/
theorem kill_tells (l : RawFd) (p : Pty) (log : Option SessionLog) (sockname progname : String) (force : Bool) (file : Nat)
    {fs : Fs} {sock : Nat} (hfs : Listens fs sockname.toList sock) (evs : List Stop) :
    let s0 := begin (SessionDaemon.new l p log sockname progname) force
    let r := run (step file fs) s0 evs
    (r.1.kill.stage = .returned 0 → (∃ n, r.1.living.next = .exited n) ∧ r.1.living.d.log = none ∧
      fs.frozen sockname.toList = false ∧ ∃ before, r.1.fx = before ++ [.removeFile sockname]) ∧
    (r.1.kill.stage = .returned 1 → looks r.2 = [] ∨ looks r.2 = List.replicate (if force then 10 else 4) false) ∧
    (∀ pre a post, evs = pre ++ .kill a :: post →
      let s := (run (step file fs) s0 pre).1
      ∀ b ∈ looks (s.step file fs (.kill a)).2,
        b = true ↔ (∃ n, s.living.next = .exited n) ∧ fs.frozen sockname.toList = false ∧ a.stat = none) ∧
    signals r.2 <+: (if force then [sigkill] else [sighup, sigkill]) ∧
    (signals r.2 = [sighup, sigkill] → ∃ rest, looks r.2 = false :: rest) ∧
    slept r.2 = 100 * (looks r.2).length ∧ (looks r.2).length ≤ (if force then 10 else 4) ∧
    (12 ≤ evs.countP Stop.isKill → ∃ code, code ≤ 1 ∧ r.1.kill.stage = .returned code) ∧
    ∀ strerror code, r.1.kill.stage = .returned code → ∃ msg : KillMsg, (code = 0 ↔ msg = .stopped ∨ msg = .killed) ∧
      killSays strerror sockname r.2 = [msg.text strerror sockname.toList (sessionShortname sockname).toList] := by
  intro s0 r
  have h : Tells sockname force fs r.1 r.2 := tells_run (SessionDaemon.new l p log sockname progname) hfs evs
  have hforce : r.1.kill.force = force := h.force
  have hran : KillRan r.1.kill r.1.kill.stage (looks r.2) (signals r.2) (said r.2) := h.ran
  refine ⟨fun hzero => ?_, fun hone => ?_, ?_, ?_, ?_, h.slept, ?_, fun hmany => ?_, fun strerror code hcode => ?_⟩
  · obtain ⟨⟨n, hn⟩, hfrozen⟩ := h.zero hzero
    obtain ⟨hlog, before, hfx, -⟩ := h.ends.ended n hn
    exact ⟨⟨n, hn⟩, hlog, hfrozen, before, hfx⟩
  · rw [hone] at hran
    generalize looks r.2 = seen, signals r.2 = sigs, said r.2 = msgs at hran
    cases hran with
    | refused e => exact .inl rfl
    | gaveUp => exact .inr (by rw [Killing.rounds, hforce])
  · rintro pre a post rfl s b hb
    have hpre : Tells sockname force fs s _ := tells_run (SessionDaemon.new l p log sockname progname) hfs pre
    rw [s.kill.step_looks (s.files file fs) s.sockname a b hb]
    exact sessionGone_iff hfs hpre.ends a
  · rw [← hforce]
    exact hran.signals_begin
  · exact hran.looked_first
  · have hlen := hran.length_le
    rwa [Killing.rounds, hforce] at hlen
  · apply hran.returned
    have hgo : r.1.kill.toGo ≤ (if force then 12 else 7) - evs.countP Stop.isKill := toGo_run evs s0
    rw [Killing.toGo] at hgo
    split at hgo <;> omega
  · rw [hcode] at hran
    obtain ⟨msg, hmsg, hgood⟩ := hran.said_one
    exact ⟨msg, hgood, by rw [killSays, hmsg]; rfl⟩

/-- The child ends after the first signal, and the look finds the socket gone. -/
def stopsAtOnce : List Stop := .kill ⟨none, [.room 10], none⟩ :: threeAndEnd.map .turn ++ [.kill ⟨none, [], none⟩]

theorem kill_tells_stopped :
    let r := run (step 1 (shortFiles "s".toList)) (begin shortDaemon false) stopsAtOnce
    r.1.kill.stage = .returned 0 ∧ (∃ n, r.1.living.next = .exited n) ∧ r.1.living.d.log = none := by
  intro r
  have hhas : HasFiles (shortFiles "s".toList) "s".toList 0 1 [8, 9] := shortFiles_has (by decide) (by decide)
  have hfs : Listens (shortFiles "s".toList) "s".toList 0 := ⟨hhas.socket, hhas.listens⟩
  have hzero : r.1.kill.stage = .returned 0 := by decide +kernel
  obtain ⟨hret, -⟩ := kill_tells 3 ⟨4, 9⟩ (some ⟨2, 64⟩) "s" "z" false 1 hfs stopsAtOnce
  exact ⟨hzero, (hret hzero).1, (hret hzero).2.1⟩

end Stopping

end Zatch
