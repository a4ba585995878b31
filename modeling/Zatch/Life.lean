import Zatch.AttachRace
import Zatch.Child
import Zatch.Descriptors
import Zatch.Files
import Zatch.LogFile
import Zatch.Lib.FileCells
/-!
# Life — a daemon from its first turn to its end (`SessionDaemon::run`, `cleanup_session`)

A life is turns of the event loop until one ends it.  Each turn is a run of acts (`turn_acts`), and the last one cleans up:
it writes the end marker and calls `remove_file` on the socket, and there is nothing after that (`socket_removed_last`).  All the
way the log holds what the PTY has put out, between the daemon's own lines, and the scrollback holds the end of the same
(`log_and_scrollback_agree`).
-/
namespace Zatch

open Machine (run Along)
open FileCells (writeAt)

/-- A daemon between two turns, and what the last turn came to. -/
structure Living where
  d : SessionDaemon
  next : SessionDaemon.Next

namespace Living

/-- The daemon's next turn, while it is at the top of its loop. -/
def step (s : Living) (k : SessionDaemon.TurnAns) : Living × List Effect :=
  match s.next with
  | .again => (⟨(s.d.turn k).d, (s.d.turn k).next⟩, (s.d.turn k).fx)
  | _ => (s, [])

end Living

namespace SessionDaemon

/-! ## Turns -/

/-- An act of this turn: a chunk that one read of the PTY gets, and as much of it in the log as the log takes. -/
def OfTurn (k : TurnAns) : Act → Prop
  | .output data took _ => data.length ≤ bufsize ∧ took = k.took
  | _ => True

theorem run_pty (as : List Act) (d : SessionDaemon) : (run act d as).1.pty = d.pty :=
  Machine.run_inv (I := fun s => s.pty = d.pty) (fun s a h => (act_fixed s a).2.trans h) as d rfl

/-- What a read of the PTY gets, when `select` has reported these. -/
def ptyReads (d : SessionDaemon) (rfds : FdSet) (k : TurnAns) : List Byte :=
  match k.ptyRead with
  | .ok data => if d.pty.fd ∈ rfds then data.take bufsize else []
  | .error _ => []

/-- What a turn reads of the PTY. -/
def turnReads (d : SessionDaemon) (k : TurnAns) : List Byte :=
  match fdSelect d.readSet d.writeSet k.sel with
  | .ok (rfds, _) => d.ptyReads rfds k
  | .error _ => []

/-- What acts read of the PTY. -/
def chunkBytes (as : List Act) : List Byte := (chunksOf as).flatten

theorem chunkBytes_append (as bs : List Act) : chunkBytes (as ++ bs) = chunkBytes as ++ chunkBytes bs := by
  rw [chunkBytes, chunksOf, List.filterMap_append, List.flatten_append]
  rfl

theorem chunkBytes_eq_nil {as : List Act} (h : ∀ a ∈ as, a.chunk = none) : chunkBytes as = [] := by
  rw [chunkBytes, chunksOf, List.filterMap_eq_nil_iff.2 h]
  rfl

theorem handlePtyOutput_acts (d : SessionDaemon) (rfds : FdSet) (k : TurnAns) :
    (∃ as : List Act, (∀ a ∈ as, OfTurn k a) ∧ chunkBytes as = d.ptyReads rfds k ∧
      run act d as = ((d.handlePtyOutput rfds k).d, (d.handlePtyOutput rfds k).fx) ∧
      ∀ n, (d.handlePtyOutput rfds k).next ≠ .exited n) ∨
    d.ptyReads rfds k = [] ∧ d.handlePtyOutput rfds k = d.hangup k := by
  by_cases hready : d.pty.fd ∈ rfds
  · simp only [handlePtyOutput, ptyReads, if_pos hready]
    cases k.ptyRead with
    | error e =>
      cases e with
      | other n => exact .inr ⟨rfl, rfl⟩
      | _ => exact .inl ⟨[], by simp, rfl, rfl, by simp⟩
    | ok data =>
      cases data with
      | nil => exact .inr ⟨rfl, rfl⟩
      | cons b bs =>
        refine .inl ⟨[.output ((b :: bs).take bufsize) k.took k.rounds], fun a ha => ?_, List.append_nil _,
          Machine.run_singleton _ _, fun n => ?_⟩
        · obtain rfl := List.mem_singleton.1 ha
          exact ⟨by rw [List.length_take]; exact Nat.min_le_left _ _, rfl⟩
        · simp only
          split <;> simp
  · simp only [handlePtyOutput, ptyReads, if_neg hready]
    refine .inl ⟨[], by simp, ?_, rfl, by simp⟩
    cases k.ptyRead <;> rfl

/-- **A turn** is a run of acts, and in the last turn the clean-up after them. -/
theorem turn_acts (d : SessionDaemon) (k : TurnAns) : ∃ as : List Act, (∀ a ∈ as, OfTurn k a) ∧ chunkBytes as = d.turnReads k ∧
    ((run act d as = ((d.turn k).d, (d.turn k).fx) ∧ ∀ n, (d.turn k).next ≠ .exited n) ∨
      ((d.turn k).d = ((run act d as).1.cleanup k.took).1 ∧
        (d.turn k).fx = (run act d as).2 ++ ((run act d as).1.cleanup k.took).2 ∧ ∃ n, (d.turn k).next = .exited n)) := by
  unfold turn turnReads
  cases hs : fdSelect d.readSet d.writeSet k.sel with
  | error e =>
    refine ⟨[.poll], by simp [OfTurn], rfl, ?_⟩
    rw [Machine.run_singleton]
    cases e with
    | eintr => exact .inl ⟨rfl, by simp⟩
    | eagain => exact .inr ⟨rfl, rfl, 0, rfl⟩
    | other n => exact .inr ⟨rfl, rfl, 0, rfl⟩
  | ok s =>
    obtain ⟨rfds, wfds⟩ := s
    simp only
    generalize hb : d.buildFdSets = b
    obtain ⟨aa, haa, ha⟩ : ∃ aa : List Act, (∀ a ∈ aa, OfTurn k a ∧ a.chunk = none) ∧ run act b.1 aa =
        (if d.listenerFd ∈ rfds then b.1.acceptClient k.accept k.took else (b.1, [])) := by
      split
      · exact ⟨[.accept k.accept k.took], by simp [OfTurn, Act.chunk], Machine.run_singleton _ _⟩
      · exact ⟨[], by simp, rfl⟩
    rw [← ha]
    generalize hda : run act b.1 aa = a
    obtain ⟨ap, hap, hp⟩ := packetLoop_eq_run rfds k.packets a.1.clients.length 0 a.1
    unfold handleClientPackets
    rw [hp]
    generalize hdp : run act a.1 ap = p
    -- the acts before the PTY is read
    have hbefore : run act d (.poll :: (aa ++ (ap ++ [.evict, .drain wfds k.drains]))) =
        ((p.1.evict.1.drainReplay wfds k.drains).1,
          b.2 ++ a.2 ++ p.2 ++ p.1.evict.2 ++ (p.1.evict.1.drainReplay wfds k.drains).2) := by
      rw [Machine.run_cons, show d.act .poll = b from hb, Machine.run_append, hda, Machine.run_append, hdp,
        Machine.run_cons, Machine.run_singleton]
      simp only [List.append_assoc]
      rfl
    have hof : ∀ a ∈ .poll :: (aa ++ (ap ++ [.evict, .drain wfds k.drains])), OfTurn k a ∧ a.chunk = none := by
      intro x hx
      rcases List.mem_cons.1 hx with rfl | hx
      · exact ⟨trivial, rfl⟩
      rcases List.mem_append.1 hx with hx | hx
      · exact haa x hx
      rcases List.mem_append.1 hx with hx | hx
      · obtain ⟨i, q, rfl⟩ := hap x hx
        exact ⟨trivial, rfl⟩
      · simp only [List.mem_cons, List.not_mem_nil, or_false] at hx
        rcases hx with rfl | rfl <;> exact ⟨trivial, rfl⟩
    have hnone := chunkBytes_eq_nil (fun a ha => (hof a ha).2)
    have hpty : (p.1.evict.1.drainReplay wfds k.drains).1.pty = d.pty := by
      have := run_pty (.poll :: (aa ++ (ap ++ [.evict, .drain wfds k.drains]))) d
      rwa [hbefore] at this
    have hreads : (p.1.evict.1.drainReplay wfds k.drains).1.ptyReads rfds k = d.ptyReads rfds k := by
      simp only [ptyReads, hpty]
    rcases handlePtyOutput_acts (p.1.evict.1.drainReplay wfds k.drains).1 rfds k with ⟨ao, hao, hchunk, ho, hn⟩ | ⟨hchunk, hh⟩
    · refine ⟨.poll :: (aa ++ (ap ++ [.evict, .drain wfds k.drains])) ++ ao, ?_, ?_, .inl ⟨?_, hn⟩⟩
      · exact List.forall_mem_append.2 ⟨fun a ha => (hof a ha).1, hao⟩
      · rw [chunkBytes_append, hnone, hchunk, hreads]
        rfl
      · rw [Machine.run_append, hbefore, ho]
    · refine ⟨.poll :: (aa ++ (ap ++ [.evict, .drain wfds k.drains])), fun a ha => (hof a ha).1, ?_, .inr ?_⟩
      · rw [hnone, ← hreads, hchunk]
      · rw [hbefore, hh]
        exact ⟨rfl, rfl, _, rfl⟩

/-! ## The socket -/

def removes : Effect → Bool
  | .removeFile _ => true
  | _ => false

theorem act_not_removes (d : SessionDaemon) (a : Act) : ∀ e ∈ (d.act a).2, removes e = false := by
  intro e he
  have hmay := act_mayDo d a e he
  cases e with
  | removeFile path => cases a <;> cases hmay
  | _ => rfl

theorem run_not_removes : ∀ (as : List Act) (d : SessionDaemon), ∀ e ∈ (run act d as).2, removes e = false
  | [], _, _, he => by cases he
  | a :: as, d, e, he => by
    rcases List.mem_append.1 he with he | he
    · exact act_not_removes d a e he
    · exact run_not_removes as _ e he

theorem act_sockname (d : SessionDaemon) (a : Act) : (d.act a).1.sockname = d.sockname ∧ (d.act a).1.progname = d.progname := by
  cases a with
  | poll => exact ⟨rfl, rfl⟩
  | accept r took =>
    simp only [act, acceptClient, logWarn, logData]
    split
    · exact ⟨rfl, rfl⟩
    · split <;> exact ⟨rfl, rfl⟩
    · exact ⟨rfl, rfl⟩
  | packet i p =>
    cases hi : d.clients[i]? with
    | none =>
      rw [act_packet_none d p hi]
      exact ⟨rfl, rfl⟩
    | some c =>
      obtain ⟨fx, -, hv⟩ := visit_spec d p hi
      rw [act_packet d p hi, hv]
      cases c.next d.scrollback p <;> exact ⟨rfl, rfl⟩
  | evict =>
    simp only [act, evict]
    split <;> exact ⟨rfl, rfl⟩
  | drain wfds ans => exact ⟨rfl, rfl⟩
  | output data took rounds =>
    simp only [act, forward, logData]
    split <;> exact ⟨rfl, rfl⟩

theorem run_sockname (as : List Act) (d : SessionDaemon) :
    (run act d as).1.sockname = d.sockname ∧ (run act d as).1.progname = d.progname :=
  Machine.run_inv (I := fun s => s.sockname = d.sockname ∧ s.progname = d.progname)
    (fun s a h => ⟨(act_sockname s a).1.trans h.1, (act_sockname s a).2.trans h.2⟩) as d ⟨rfl, rfl⟩

/-- The line `cleanup_session` ends the log with. -/
def endLine (d : SessionDaemon) : List Byte :=
  bytesOf ("\r\n[" ++ d.progname ++ ": session '" ++ sessionShortname d.sockname ++ "' ended]\r\n")

theorem cleanup_fx (d : SessionDaemon) (took : Nat) :
    (d.cleanup took).2 = (d.logData d.endLine took).2 ++ [.removeFile d.sockname] ∧ (d.cleanup took).1.log = none := ⟨rfl, rfl⟩

end SessionDaemon

/-- What a life has come to: it removes its socket and closes the log exactly when it has ended, and that is its last. -/
structure Ends (sockname : String) (s : Living) (out : List Effect) : Prop where
  name : s.d.sockname = sockname
  alive : (∀ n, s.next ≠ .exited n) → ∀ e ∈ out, SessionDaemon.removes e = false
  ended : ∀ n, s.next = .exited n → s.d.log = none ∧
    ∃ before, out = before ++ [.removeFile sockname] ∧ ∀ e ∈ before, SessionDaemon.removes e = false

theorem Ends.step {sockname : String} {s : Living} {out : List Effect} (h : Ends sockname s out) (k : SessionDaemon.TurnAns) :
    Ends sockname (s.step k).1 (out ++ (s.step k).2) := by
  unfold Living.step
  cases hn : s.next with
  | sending => simpa using h
  | exited n => simpa using h
  | again =>
    have hout := h.alive (fun n h' => by rw [hn] at h'; cases h')
    obtain ⟨as, -, -, ⟨hrun, hnext⟩ | ⟨hd, hfx, n, hnext⟩⟩ := SessionDaemon.turn_acts s.d k
    · have hno := SessionDaemon.run_not_removes as s.d
      have hname := (SessionDaemon.run_sockname as s.d).1
      rw [hrun] at hno hname
      exact ⟨hname.trans h.name, fun _ => List.forall_mem_append.2 ⟨hout, hno⟩, fun n h' => absurd h' (hnext n)⟩
    · obtain ⟨hclean, hlog⟩ := SessionDaemon.cleanup_fx (run SessionDaemon.act s.d as).1 k.took
      have hname : (run SessionDaemon.act s.d as).1.sockname = sockname := (SessionDaemon.run_sockname as s.d).1.trans h.name
      refine ⟨?_, fun h' => absurd hnext (h' n), fun _ _ => ⟨?_, ?_⟩⟩
      · show (s.d.turn k).d.sockname = sockname
        rw [hd, SessionDaemon.cleanup]
        simp only [SessionDaemon.logData]
        split <;> exact hname
      · show (s.d.turn k).d.log = none
        rw [hd]
        exact hlog
      · refine ⟨out ++ ((run SessionDaemon.act s.d as).2 ++ ((run SessionDaemon.act s.d as).1.logData
          (run SessionDaemon.act s.d as).1.endLine k.took).2), ?_, ?_⟩
        · show out ++ (s.d.turn k).fx = _
          rw [hfx, hclean, hname]
          simp only [List.append_assoc]
        · refine List.forall_mem_append.2 ⟨hout, List.forall_mem_append.2 ⟨SessionDaemon.run_not_removes as s.d, ?_⟩⟩
          intro e he
          obtain ⟨pos, bs, rfl⟩ := SessionDaemon.mem_logData he
          rfl

theorem ends_run (l : RawFd) (p : Pty) (log : Option SessionLog) (sockname progname : String) (ks : List SessionDaemon.TurnAns) :
    let r := run Living.step ⟨SessionDaemon.new l p log sockname progname, .again⟩ ks
    Ends sockname r.1 r.2 := by
  intro r
  show Ends sockname r.1 ([] ++ r.2)
  refine Along.history (P := fun _ _ => True) (R := Ends sockname) (fun _ k _ hs _ => Ends.step hs k) ?_
    (Machine.along_of_forall ks _ (fun _ _ _ => trivial))
  exact ⟨rfl, fun _ => by simp, fun n h => by cases h⟩

/-! ## The files -/

/-- What an effect of the daemon does to the files, its log being the file of this number. -/
def Effect.onFiles (log : Nat) (fs : Fs) : Effect → Fs
  | .logWrote pos bs => fs.rewrite log (writeAt 0 · pos bs)
  | .removeFile path => (fs.unlink path.toList).1
  | _ => fs

def filesAfter (log : Nat) (fs : Fs) (fx : List Effect) : Fs := fx.foldl (Effect.onFiles log) fs

/-- A daemon that removes nothing writes to its log, and that is all. -/
theorem filesAfter_of_not_removes (log : Nat) : ∀ (fx : List Effect) (fs : Fs), (∀ e ∈ fx, SessionDaemon.removes e = false) →
    FileSystem.Fs.After fs (filesAfter log fs fx) ∧ (filesAfter log fs fx).dir = fs.dir
  | [], fs, _ => ⟨.refl fs, rfl⟩
  | e :: fx, fs, h => by
    have hstep : FileSystem.Fs.After fs (e.onFiles log fs) ∧ (e.onFiles log fs).dir = fs.dir := by
      have he := h e List.mem_cons_self
      cases e with
      | logWrote pos bs => exact ⟨FileSystem.Fs.rewrite_after fs log _, FileSystem.Fs.rewrite_dir fs log _⟩
      | removeFile path => cases he
      | _ => exact ⟨.refl fs, rfl⟩
    obtain ⟨hafter, hdir⟩ := filesAfter_of_not_removes log fx (e.onFiles log fs) (fun x hx => h x (List.mem_cons_of_mem _ hx))
    exact ⟨hstep.1.trans hafter, hdir.trans hstep.2⟩

/-- The log's file after these effects. -/
def logHolds (old : List Byte) (fx : List Effect) : List Byte :=
  (logWrites fx).foldl (fun file w => writeAt 0 file w.1 w.2) old

theorem logHolds_append (old : List Byte) (fx fy : List Effect) : logHolds old (fx ++ fy) = logHolds (logHolds old fx) fy := by
  rw [logHolds, logWrites_append, List.foldl_append]
  rfl

/-- One write at the end of the log. -/
theorem logHolds_write {old : List Byte} {out fx : List Effect} {pos : Nat} {bs : List Byte}
    (hpos : pos = (logHolds old out).length) (hw : logWrites fx = [(pos, bs)]) :
    logHolds old (out ++ fx) = logHolds old out ++ bs := by
  rw [logHolds_append]
  generalize logHolds old out = file at hpos
  rw [logHolds, hw, List.foldl_cons, List.foldl_nil, hpos, FileCells.writeAt_length]

/-- Each of these writes is at the end of the file that it finds. -/
def Appends : List Byte → List (Nat × List Byte) → Prop
  | _, [] => True
  | file, w :: ws => w.1 = file.length ∧ Appends (file ++ w.2) ws

theorem appends_append : ∀ (ws vs : List (Nat × List Byte)) (file : List Byte),
    Appends file (ws ++ vs) ↔ Appends file ws ∧ Appends (file ++ ws.flatMap Prod.snd) vs
  | [], vs, file => by simp [Appends]
  | w :: ws, vs, file => by
    rw [List.cons_append, Appends, appends_append ws vs, Appends, and_assoc, List.flatMap_cons, List.append_assoc]

theorem Appends.holds : ∀ (ws : List (Nat × List Byte)) {file : List Byte}, Appends file ws →
    ws.foldl (fun file w => writeAt 0 file w.1 w.2) file = file ++ ws.flatMap Prod.snd
  | [], file, _ => by simp
  | w :: ws, file, h => by
    rw [List.foldl_cons, h.1, FileCells.writeAt_length, Appends.holds ws h.2, List.flatMap_cons, List.append_assoc]

/-- What the daemon writes to its log, as the steps of the log's file. -/
def logOps (fx : List Effect) : List LogFile.LogOp := (logWrites fx).flatMap (fun w => LogFile.writes w.2)

/-- **Writes each at the end of the file** are a run of the log's file. -/
theorem Appends.runs : ∀ (ws : List (Nat × List Byte)) {file : List Byte}, Appends file ws →
    (run LogFile.step ⟨file, file.length, [], false⟩ (ws.flatMap (fun w => LogFile.writes w.2))).1.file =
      file ++ ws.flatMap Prod.snd
  | [], file, _ => by simp
  | w :: ws, file, h => by
    rw [List.flatMap_cons, Machine.run_append, LogFile.run_writes, FileCells.writeAt_length, ← List.length_append,
      Appends.runs ws h.2, List.flatMap_cons, List.append_assoc]

/-- The daemon has only added to its log, and goes on at the log's end. -/
structure Grows (old : List Byte) (d : SessionDaemon) (out : List Effect) : Prop where
  appends : Appends old (logWrites out)
  pos : ∃ l, d.log = some l ∧ l.pos = (logHolds old out).length

theorem Grows.write {old : List Byte} {out fx : List Effect} {pos : Nat} {bs : List Byte} (h : Appends old (logWrites out))
    (hpos : pos = (logHolds old out).length) (hw : logWrites fx = [(pos, bs)]) : Appends old (logWrites (out ++ fx)) := by
  rw [logWrites_append, appends_append, hw]
  exact ⟨h, hpos.trans (congrArg List.length (Appends.holds _ h)), trivial⟩

theorem Grows.act {old : List Byte} {d : SessionDaemon} {out : List Effect} (h : Grows old d out) (a : SessionDaemon.Act) :
    Grows old (d.act a).1 (out ++ (d.act a).2) := by
  obtain ⟨l, hl, hpos⟩ := h.pos
  rcases SessionDaemon.act_log hl a with ⟨-, hw, hlog⟩ | ⟨bs, hw, hlog, -⟩
  · refine ⟨?_, l, hlog, ?_⟩
    · rw [logWrites_append, hw, List.append_nil]
      exact h.appends
    · rw [logHolds_append, logHolds, hw]
      exact hpos
  · refine ⟨Grows.write h.appends hpos hw, _, hlog, ?_⟩
    rw [logHolds_write hpos hw, List.length_append, hpos]

theorem Grows.run {old : List Byte} {d : SessionDaemon} {out : List Effect} (h : Grows old d out)
    (as : List SessionDaemon.Act) : Grows old (run SessionDaemon.act d as).1 (out ++ (run SessionDaemon.act d as).2) :=
  Along.history (P := fun _ _ => True) (R := Grows old) (fun _ a _ hd _ => Grows.act hd a) h
    (Machine.along_of_forall as _ (fun _ _ _ => trivial))

/-- The end writes the end marker, and leaves what is not the log. -/
theorem SessionDaemon.cleanup_log {d : SessionDaemon} {l : SessionLog} (hl : d.log = some l) (took : Nat) :
    logWrites (d.cleanup took).2 = [(l.pos, d.endLine.take took)] ∧ (d.cleanup took).1.endLine = d.endLine ∧
      (d.cleanup took).1.scrollback = d.scrollback := by
  refine ⟨?_, ?_, ?_⟩
  · rw [(cleanup_fx d took).1]
    simp only [logData, hl, SessionLog.write]
    rfl
  · simp only [cleanup, logData, hl]
    rfl
  · simp only [cleanup, logData, hl]

/-- A life has only added to the log. -/
structure GrowsOn (old : List Byte) (s : Living) (out : List Effect) : Prop where
  appends : Appends old (logWrites out)
  alive : (∀ n, s.next ≠ .exited n) → Grows old s.d out

theorem GrowsOn.step {old : List Byte} {s : Living} {out : List Effect} (h : GrowsOn old s out) (k : SessionDaemon.TurnAns) :
    GrowsOn old (s.step k).1 (out ++ (s.step k).2) := by
  unfold Living.step
  cases hn : s.next with
  | sending => simpa using h
  | exited n => simpa using h
  | again =>
    have hgrows := h.alive (fun n h' => by rw [hn] at h'; cases h')
    obtain ⟨as, -, -, ⟨hrun, -⟩ | ⟨-, hfx, n, hnext⟩⟩ := SessionDaemon.turn_acts s.d k
    · have hnow := hgrows.run as
      rw [hrun] at hnow
      exact ⟨hnow.appends, fun _ => hnow⟩
    · have hnow := hgrows.run as
      obtain ⟨l, hl, hpos⟩ := hnow.pos
      obtain ⟨hwrites, -, -⟩ := SessionDaemon.cleanup_log hl k.took
      refine ⟨?_, fun h' => absurd hnext (h' n)⟩
      show Appends old (logWrites (out ++ (s.d.turn k).fx))
      rw [hfx, ← List.append_assoc]
      exact Grows.write hnow.appends hpos hwrites

theorem growsOn_run (l : RawFd) (p : Pty) (log : SessionLog) (sockname progname : String) (old : List Byte)
    (hlog : log.pos = old.length) (ks : List SessionDaemon.TurnAns) :
    let r := run Living.step ⟨SessionDaemon.new l p (some log) sockname progname, .again⟩ ks
    GrowsOn old r.1 r.2 := by
  intro r
  show GrowsOn old r.1 ([] ++ r.2)
  refine Along.history (P := fun _ _ => True) (R := GrowsOn old) (fun _ k _ hs _ => GrowsOn.step hs k) ?_
    (Machine.along_of_forall ks _ (fun _ _ _ => trivial))
  exact ⟨trivial, fun _ => ⟨trivial, log, rfl, hlog⟩⟩

/-- What the PTY put out, with this line between in places, as much of it as was taken there. -/
inductive Interleaved (line : List Byte) : List LogByte → Prop
  | nil : Interleaved line []
  | pty {bytes : List LogByte} (data : List Byte) : Interleaved line bytes → Interleaved line (bytes ++ data.map .pty)
  | warn {bytes : List LogByte} (n : Nat) : Interleaved line bytes → Interleaved line (bytes ++ (line.take n).map .warn)

/-- The log's file is what there was and these bytes, of the PTY and of the daemon's warnings, the daemon writes on at its end,
and the scrollback holds the end of what the PTY put out among them. -/
structure Logs (old warning : List Byte) (d : SessionDaemon) (out : List Effect) (bytes : List LogByte) : Prop where
  file : logHolds old out = old ++ bytes.map LogByte.val
  lines : d.warnLine = warning ∧ Interleaved warning bytes
  pos : ∃ l, d.log = some l ∧ l.pos = (logHolds old out).length
  ring : d.scrollback.contents = (ptyBytes bytes).rtake scrollbackSize

/-- A write is one more piece of what the log is made of. -/
theorem Interleaved.write {d : SessionDaemon} {bytes : List LogByte} (h : Interleaved d.warnLine bytes)
    {a : SessionDaemon.Act} {bs : List Byte} (hbs : a.chunk = none → ∃ n, bs = d.warnLine.take n) :
    Interleaved d.warnLine (bytes ++ bs.map a.mark) := by
  cases a with
  | output data took rounds => exact .pty bs h
  | _ =>
    obtain ⟨n, rfl⟩ := hbs rfl
    exact .warn n h

theorem SessionDaemon.act_warnLine (d : SessionDaemon) (a : SessionDaemon.Act) : (d.act a).1.warnLine = d.warnLine := by
  rw [warnLine, warnLine, (act_sockname d a).2]

theorem Logs.act {old warning : List Byte} {d : SessionDaemon} {out : List Effect} {bytes : List LogByte}
    (h : Logs old warning d out bytes) {a : SessionDaemon.Act} (ha : SessionDaemon.LogTakes a) :
    ∃ new, ptyBytes new = a.chunk.getD [] ∧ Logs old warning (d.act a).1 (out ++ (d.act a).2) (bytes ++ new) := by
  obtain ⟨l, hl, hpos⟩ := h.pos
  obtain ⟨rfl, hbytes⟩ := h.lines
  have hline := SessionDaemon.act_warnLine d a
  rcases SessionDaemon.act_log hl a with ⟨hchunk, hw, hlog⟩ | ⟨bs, hw, hlog, hbs, hwarn⟩
  · have hsame : logHolds old (out ++ (d.act a).2) = logHolds old out := by
      rw [logHolds_append, logHolds, hw]
      rfl
    refine ⟨[], by rw [hchunk]; rfl, ?_, ⟨hline, ?_⟩, ⟨l, hlog, by rw [hsame]; exact hpos⟩, ?_⟩
    · rw [hsame, List.append_nil]
      exact h.file
    · rw [List.append_nil]
      exact hbytes
    · rw [SessionDaemon.scrollback_of_not_output d hchunk, List.append_nil]
      exact h.ring
  · have hfile := logHolds_write hpos hw
    have hval : (bs.map a.mark).map LogByte.val = bs := map_val_map (fun b => by cases a <;> rfl) bs
    refine ⟨bs.map a.mark, ?_, ?_, ⟨hline, hbytes.write hwarn⟩, ⟨_, hlog, ?_⟩, ?_⟩
    · cases a with
      | output data took rounds =>
        rw [hbs data took rounds rfl, List.take_of_length_le ha]
        exact ptyBytes_pty data
      | _ => exact ptyBytes_warn bs
    · rw [hfile, h.file, List.map_append, hval, List.append_assoc]
    · rw [hfile, List.length_append, hpos]
    · rw [SessionDaemon.act_scrollback, ptyBytes_append]
      cases a with
      | output data took rounds =>
        have hall : bs = data := by
          rw [hbs data took rounds rfl]
          exact List.take_of_length_le ha
        simp only [SessionDaemon.Act.mark, ptyBytes_pty]
        rw [Ring.contents_append, h.ring, Cyclic.rtake_rtake_append, hall]
      | _ =>
        simp only [SessionDaemon.Act.mark, ptyBytes_warn, List.append_nil]
        exact h.ring

theorem Logs.run {old warning : List Byte} : ∀ (as : List SessionDaemon.Act) {d : SessionDaemon} {out : List Effect}
    {bytes : List LogByte}, Logs old warning d out bytes → (∀ a ∈ as, SessionDaemon.LogTakes a) →
    ∃ new, ptyBytes new = SessionDaemon.chunkBytes as ∧
      Logs old warning (run SessionDaemon.act d as).1 (out ++ (run SessionDaemon.act d as).2) (bytes ++ new)
  | [], _, _, _, h, _ => ⟨[], rfl, by simpa using h⟩
  | a :: as, d, out, bytes, h, has => by
    obtain ⟨new, hnew, hact⟩ := h.act (has a List.mem_cons_self)
    obtain ⟨new', hnew', hrun⟩ := Logs.run as hact (fun x hx => has x (List.mem_cons_of_mem _ hx))
    refine ⟨new ++ new', ?_, ?_⟩
    · rw [ptyBytes_append, hnew, hnew', ← List.singleton_append, SessionDaemon.chunkBytes_append]
      cases a <;> simp [SessionDaemon.Act.chunk, SessionDaemon.chunkBytes, SessionDaemon.chunksOf]
    · rw [Machine.run_cons, ← List.append_assoc, ← List.append_assoc]
      exact hrun

/-- The log takes what it is given: a chunk of output, and the end marker. -/
def LogTakesAll (marker : List Byte) (k : SessionDaemon.TurnAns) : Prop := bufsize ≤ k.took ∧ marker.length ≤ k.took

/-- What the PTY puts out in a life: what each turn reads of it. -/
def Living.output : Living → List SessionDaemon.TurnAns → List Byte
  | _, [] => []
  | s, k :: ks => (if s.next = .again then s.d.turnReads k else []) ++ output (s.step k).1 ks

/-- A life with its log, the PTY having put this out: while the daemon is there, and when it has ended, with the end marker
after all the rest. -/
def LogsOn (old warning marker : List Byte) (s : Living) (out : List Effect) (put : List Byte) : Prop :=
  s.d.endLine = marker ∧ ∃ bytes, logHolds old out = old ++ bytes.map LogByte.val ∧ ptyBytes bytes = put ∧
    s.d.scrollback.contents = put.rtake scrollbackSize ∧
    ((∀ n, s.next ≠ .exited n) → Logs old warning s.d out bytes) ∧
    ∀ n, s.next = .exited n → ∃ before, bytes = before ++ marker.map .warn ∧ Interleaved warning before

theorem LogsOn.step {old warning marker : List Byte} {s : Living} {out : List Effect} {put : List Byte}
    (h : LogsOn old warning marker s out put) {k : SessionDaemon.TurnAns} (hk : LogTakesAll marker k) :
    LogsOn old warning marker (s.step k).1 (out ++ (s.step k).2) (put ++ if s.next = .again then s.d.turnReads k else []) := by
  obtain ⟨hmark, bytes, hfile, hput, hring, halive, hended⟩ := h
  have hsame : s.next ≠ .again → s.step k = (s, []) →
      LogsOn old warning marker (s.step k).1 (out ++ (s.step k).2)
        (put ++ if s.next = .again then s.d.turnReads k else []) := by
    intro hnext heq
    rw [heq, if_neg hnext, List.append_nil, List.append_nil]
    exact ⟨hmark, bytes, hfile, hput, hring, halive, hended⟩
  by_cases hn : s.next = .again
  · have hlogs := halive (fun n h' => by rw [hn] at h'; cases h')
    have hstep : s.step k = (⟨(s.d.turn k).d, (s.d.turn k).next⟩, (s.d.turn k).fx) := by rw [Living.step, hn]
    rw [hstep, if_pos hn]
    obtain ⟨as, has, hreads, hturn⟩ := SessionDaemon.turn_acts s.d k
    have htakes : ∀ a ∈ as, SessionDaemon.LogTakes a := by
      intro a ha
      have := has a ha
      cases a with
      | output data took rounds => exact Nat.le_trans this.1 (this.2 ▸ hk.1)
      | _ => trivial
    obtain ⟨new, hnew, hrun⟩ := hlogs.run as htakes
    rw [hreads] at hnew
    have hput' : ptyBytes (bytes ++ new) = put ++ s.d.turnReads k := by rw [ptyBytes_append, hput, hnew]
    have hring' := hrun.ring
    rw [hput'] at hring'
    obtain ⟨hsock, hprog⟩ := SessionDaemon.run_sockname as s.d
    have hline : (run SessionDaemon.act s.d as).1.endLine = marker := by
      rw [← hmark, SessionDaemon.endLine, hsock, hprog]
      rfl
    rcases hturn with ⟨heq, hnext⟩ | ⟨hd, hfx, n, hnext⟩
    · rw [heq] at hrun hring' hline
      exact ⟨hline, bytes ++ new, hrun.file, hput', hring', fun _ => hrun, fun n h' => absurd h' (hnext n)⟩
    · -- the last turn: the marker goes after all the rest
      obtain ⟨l, hl, hpos⟩ := hrun.pos
      obtain ⟨hwrites, hsame, hscrollback⟩ := SessionDaemon.cleanup_log hl k.took
      rw [hline, List.take_of_length_le hk.2] at hwrites
      refine ⟨by rw [hd, hsame, hline], (bytes ++ new) ++ marker.map .warn, ?_, ?_, ?_, fun h' => absurd hnext (h' n),
        fun _ _ => ⟨bytes ++ new, rfl, hrun.lines.2⟩⟩
      · have hsplit : (bytes ++ new ++ marker.map LogByte.warn).map LogByte.val = (bytes ++ new).map LogByte.val ++ marker := by
          rw [List.map_append, map_val_map (fun _ => rfl)]
        show logHolds old (out ++ (s.d.turn k).fx) = _
        rw [hfx, ← List.append_assoc, logHolds_write hpos hwrites, hrun.file, hsplit, List.append_assoc]
      · rw [ptyBytes_append, ptyBytes_warn, List.append_nil, hput']
      · rw [hd, hscrollback]
        exact hring'
  · apply hsame hn
    unfold Living.step
    split
    · exact absurd ‹_› hn
    · rfl

theorem LogsOn.run {old warning marker : List Byte} : ∀ (ks : List SessionDaemon.TurnAns) {s : Living} {out : List Effect}
    {put : List Byte}, LogsOn old warning marker s out put → (∀ k ∈ ks, LogTakesAll marker k) →
    LogsOn old warning marker (run Living.step s ks).1 (out ++ (run Living.step s ks).2) (put ++ s.output ks)
  | [], s, out, put, h, _ => by
    rw [Machine.run_nil, Living.output, List.append_nil, List.append_nil]
    exact h
  | k :: ks, s, out, put, h, hks => by
    have hstep := h.step (hks k List.mem_cons_self)
    rw [Machine.run_cons, Living.output, ← List.append_assoc, ← List.append_assoc]
    exact LogsOn.run ks hstep (fun x hx => hks x (List.mem_cons_of_mem _ hx))

theorem logsOn_run (l : RawFd) (p : Pty) (log : SessionLog) (sockname progname : String) (old : List Byte)
    (hlog : log.pos = old.length) (ks : List SessionDaemon.TurnAns)
    (h : ∀ k ∈ ks, LogTakesAll (SessionDaemon.new l p (some log) sockname progname).endLine k) :
    let d := SessionDaemon.new l p (some log) sockname progname
    let s : Living := ⟨d, .again⟩
    LogsOn old d.warnLine d.endLine (Machine.run Living.step s ks).1 (Machine.run Living.step s ks).2 (s.output ks) := by
  intro d s
  have hring : Ring.new.contents = [] := Cyclic.window_zero _ _
  have hfile : logHolds old [] = old ++ ([] : List LogByte).map LogByte.val := (List.append_nil _).symm
  have hbegin : LogsOn old d.warnLine d.endLine s [] [] :=
    ⟨rfl, [], hfile, rfl, hring, fun _ => ⟨hfile, ⟨rfl, .nil⟩, ⟨log, rfl, hlog⟩, hring⟩, fun n h' => by cases h'⟩
  exact LogsOn.run ks hbegin h

/-- A daemon, three bytes of output, and the end of the PTY. -/
def shortDaemon : SessionDaemon := SessionDaemon.new 3 ⟨4, 9⟩ (some ⟨2, 64⟩) "s" "z"

def threeAndEnd : List SessionDaemon.TurnAns :=
  let k : SessionDaemon.TurnAns := ⟨.ready [4] [], .fail .eintr, fun _ => ⟨[], [], [], .fail .eagain, none⟩, fun _ => [],
    .ok [1, 2, 3], [], some 7, bufsize + shortDaemon.endLine.length⟩
  [k, { k with ptyRead := .ok [] }]

theorem threeAndEnd_takes : ∀ k ∈ threeAndEnd, LogTakesAll shortDaemon.endLine k := by
  simp only [threeAndEnd, List.mem_cons, List.not_mem_nil, or_false]
  rintro k (rfl | rfl) <;> exact ⟨Nat.le_add_right _ _, Nat.le_add_left _ _⟩

theorem output_threeAndEnd : Living.output ⟨shortDaemon, .again⟩ threeAndEnd = [1, 2, 3] := by decide +kernel

end Zatch
