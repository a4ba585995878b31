import Mathlib.Data.Set.Finite.Lattice
import Zatch.Lib.Sweep
import Zatch.Listing
import Zatch.SessionDir
/-!
# RmAll — what `rm -a` leaves, in whatever order the directory is read

`rm -a` goes through the directory twice: over the stale sockets, with their logs, and then over the logs whose session
is gone.  On the names that are there each is a sweep; the first finds the same sockets stale whenever it comes to them.
The second is over logs that other logs may be named after, and it makes the application log itself where that is not
there: what it leaves depends on the order exactly when a log has an orphaned log for its session (`rmAll_clean_iff`).
-/
namespace Zatch

open Machine (run)
open FileSystem (Kind)
open Sweep (Rule Kept)

/-- A name that `read_dir` may give. -/
structure EntryName (e : OsStr) : Prop where
  nonempty : e ≠ []
  no_slash : .chr '/' ∉ e
  not_dot : e ≠ os ".".toList
  not_dots : e ≠ os "..".toList

/-- The names of the directory that have a file. -/
def names (dir : Str) (fs : Fs) : Set OsStr := {e | fs.look (joinEntry dir e) ≠ none}

/-- What `read_dir` gives, in any order. -/
def entries (dir : Str) (fs : Fs) : Set OsStr := {e | EntryName e ∧ e ∈ names dir fs}

/-- An order of the directory's entries. -/
structure Lists (dir : Str) (fs : Fs) (l : List OsStr) : Prop where
  nodup : l.Nodup
  mem_iff : ∀ e, e ∈ l ↔ e ∈ entries dir fs

abbrev appLogName : OsStr := os appLogFileName

/-- A directory without symbolic links, where `remove_file` removes what `rm -a` may come to. -/
structure Plain (dir : Str) (fs : Fs) : Prop where
  not_link : ∀ e : OsStr, .chr '/' ∉ e → ∀ target, fs.look (joinEntry dir e) ≠ some (.link target)
  not_frozen : ∀ e, EntryName e → e ≠ appLogName → e ∈ names dir fs → fs.frozen (joinEntry dir e) = false
  not_directory : ∀ e, EntryName e → e ≠ appLogName → extension e = some (os "log".toList) →
    fs.look (joinEntry dir e) ≠ some .directory

/-- What is left of the directory: names may be gone, and the application log new. -/
structure Shed (dir : Str) (fs fs' : Fs) : Prop where
  look : ∀ e, fs'.look (joinEntry dir e) = fs.look (joinEntry dir e) ∨ fs'.look (joinEntry dir e) = none ∨
    (e = appLogName ∧ fs'.look (joinEntry dir e) = some (.regular []))
  frozen : fs'.frozen = fs.frozen

/-- The names, with the application log's if a record made it. -/
def noted (opens : Bool) (s : Set OsStr) : Set OsStr := {e | e ∈ s ∨ (e = appLogName ∧ opens = true)}

variable {dir : Str} {fs fs' fs'' : Fs} {e : OsStr}

theorem mem_names : e ∈ names dir fs ↔ fs.look (joinEntry dir e) ≠ none := Iff.rfl

theorem mem_noted {opens : Bool} {s : Set OsStr} : e ∈ noted opens s ↔ e ∈ s ∨ (e = appLogName ∧ opens = true) := Iff.rfl

theorem subset_noted (opens : Bool) (s : Set OsStr) : s ⊆ noted opens s := fun _ he => .inl he

theorem Shed.refl (dir : Str) (fs : Fs) : Shed dir fs fs := ⟨fun _ => .inl rfl, rfl⟩

theorem Shed.trans (h : Shed dir fs fs') (h' : Shed dir fs' fs'') : Shed dir fs fs'' where
  look e := by
    rcases h'.look e with heq | hgone | hnew
    · rw [heq]
      exact h.look e
    · exact .inr (.inl hgone)
    · exact .inr (.inr hnew)
  frozen := h'.frozen.trans h.frozen

/-- What is neither gone nor the application log's is what it was. -/
theorem Shed.look_of_some (h : Shed dir fs fs') {k : Kind OsStr Byte} (hk : k ≠ .regular [])
    (he : fs'.look (joinEntry dir e) = some k) : fs.look (joinEntry dir e) = some k := by
  rcases h.look e with heq | hgone | ⟨-, hnew⟩
  · rw [← heq, he]
  · rw [hgone] at he
    cases he
  · rw [hnew, Option.some_inj] at he
    exact absurd he.symm hk

theorem Plain.shed (hplain : Plain dir fs) (h : Shed dir fs fs') : Plain dir fs' where
  not_link e hslash target hlink := hplain.not_link e hslash target (h.look_of_some (by simp) hlink)
  not_frozen e he happ hmem := by
    rw [h.frozen]
    apply hplain.not_frozen e he happ
    rcases h.look e with heq | hgone | ⟨hnew, -⟩
    · rwa [mem_names, ← heq]
    · exact absurd hgone hmem
    · exact absurd hnew happ
  not_directory e he happ hext hdir := hplain.not_directory e he happ hext (h.look_of_some (by simp) hdir)

theorem appLog_no_slash : OsChar.chr '/' ∉ appLogName := by decide

/-- Whether a file is there is what `exists` says. -/
theorem Plain.stat_iff (hplain : Plain dir fs) (hslash : .chr '/' ∉ e) :
    (∃ k, fs.stat (joinEntry dir e) = .ok k) ↔ e ∈ names dir fs := by
  rw [mem_names]
  cases hlook : fs.look (joinEntry dir e) with
  | none =>
    rw [FileSystem.Fs.stat_of_look_none hlook]
    simp
  | some k =>
    obtain ⟨k', hk', -⟩ := FileSystem.Fs.stat_of_look hlook
      (fun q hq => hplain.not_link e hslash q (hlook.trans (congrArg some hq)))
    simp [hk']

theorem Plain.stat_socket_iff (hplain : Plain dir fs) (hslash : .chr '/' ∉ e) (listening : Bool) :
    fs.stat (joinEntry dir e) = .ok (.socket listening) ↔ fs.look (joinEntry dir e) = some (.socket listening) := by
  cases hlook : fs.look (joinEntry dir e) with
  | none =>
    rw [FileSystem.Fs.stat_of_look_none hlook]
    simp
  | some k =>
    obtain ⟨k', hk', hblank⟩ := FileSystem.Fs.stat_of_look hlook
      (fun q hq => hplain.not_link e hslash q (hlook.trans (congrArg some hq)))
    rw [hk', Except.ok.injEq, Option.some_inj, ← hblank]
    cases k' <;> simp [Kind.blank]

/-! ## What a record and a removal leave -/

/-- **A record** adds nothing to the directory but the application log. -/
theorem record_names (hplain : Plain dir fs) (n : Note) :
    names dir (record (join dir appLogFileName) fs n) = noted n.opens (names dir fs) ∧
      Shed dir fs (record (join dir appLogFileName) fs n) := by
  have hlook : ∀ e, (record (join dir appLogFileName) fs n).look (joinEntry dir e) =
      if n.opens = true ∧ fs.look (joinEntry dir appLogName) = none ∧ e = appLogName then some (.regular [])
      else fs.look (joinEntry dir e) := by
    intro e
    have h := record_look (join dir appLogFileName)
      (by rw [← joinEntry_os]; exact hplain.not_link _ appLog_no_slash) n (joinEntry dir e)
    rw [← joinEntry_os] at h
    simpa only [joinEntry_inj] using h
  refine ⟨?_, fun e => ?_, (record_after _ _ _).frozen_eq⟩
  · ext e
    rw [mem_names, hlook, mem_noted, mem_names]
    by_cases he : e = appLogName
    · cases n.opens <;> by_cases hfree : fs.look (joinEntry dir appLogName) = none <;> simp [he, hfree]
    · simp [he]
  · rw [hlook]
    split
    · rename_i h
      exact .inr (.inr ⟨h.2.2, rfl⟩)
    · exact .inl rfl

theorem Plain.removable (hplain : Plain dir fs) (he : EntryName e) (happ : e ≠ appLogName)
    (hdir : fs.look (joinEntry dir e) ≠ some .directory) :
    fs.dir (joinEntry dir e) = none ∨ fs.Removable (joinEntry dir e) := by
  cases hp : fs.dir (joinEntry dir e) with
  | none => exact .inl rfl
  | some i =>
    have hmem : e ∈ names dir fs := fun hnone => by
      rw [FileSystem.Fs.look_eq_none_iff, hp] at hnone
      cases hnone
    refine .inr ⟨i, hp, ?_, hplain.not_frozen e he happ hmem⟩
    rw [FileSystem.Fs.look, hp, Option.map_some] at hdir
    cases hnode : fs.node i with
    | directory =>
      rw [hnode] at hdir
      exact absurd rfl hdir
    | _ => rfl

/-- **A removal** takes the one name. -/
theorem remove_names (strerror : Errno → Str) (appLog : Str) (hplain : Plain dir fs) (he : EntryName e)
    (happ : e ≠ appLogName) (hdir : fs.look (joinEntry dir e) ≠ some .directory) (a : RecordAns) :
    names dir (removeFileIfExists strerror appLog fs (joinEntry dir e) a) = {x | x ∈ names dir fs ∧ x ≠ e} ∧
      Shed dir fs (removeFileIfExists strerror appLog fs (joinEntry dir e) a) := by
  have hlook : ∀ x, (removeFileIfExists strerror appLog fs (joinEntry dir e) a).look (joinEntry dir x) =
      if x = e then none else fs.look (joinEntry dir x) := by
    intro x
    rw [removeFileIfExists]
    rcases hplain.removable he happ hdir with hfree | hrem
    · have hun : fs.unlink (joinEntry dir e) = (fs, .error .noEntry) := by rw [FileSystem.Fs.unlink, hfree]
      rw [hun]
      dsimp only
      rw [if_pos rfl]
      split
      · rename_i hx
        rw [hx, FileSystem.Fs.look_eq_none_iff, hfree]
      · rfl
    · rw [FileSystem.Fs.unlink_of_removable hrem]
      dsimp only
      rw [FileSystem.Fs.drop_look]
      simp only [joinEntry_inj]
  have hfrozen := (removeFileIfExists_after strerror appLog fs (joinEntry dir e) a).frozen_eq
  refine ⟨?_, fun x => ?_, hfrozen⟩
  · ext x
    rw [mem_names, hlook, Set.mem_ofPred_eq, mem_names]
    split <;> simp [*]
  · rw [hlook]
    split
    · exact .inr (.inl rfl)
    · exact .inl rfl

/-! ## One visit -/

/-- What the system answers at an entry, whenever it is visited. -/
abbrev Answers := OsStr → RmAns

def visit (ans : Answers) (e : OsStr) : Visit := ⟨ans e, e⟩

@[simp] theorem visit_entry (ans : Answers) (e : OsStr) : (visit ans e).entry = e := rfl

@[simp] theorem visit_answer (ans : Answers) (e : OsStr) : (visit ans e).toRmAns = ans e := rfl

def IsStale (dir : Str) (ans : Answers) (fs : Fs) (e : OsStr) : Prop := ∃ name, staleName dir fs (visit ans e) = some name

variable {ans : Answers} {p : Program}

theorem IsStale.name (h : IsStale p.dir ans fs e) : ∃ name, e = os name ∧ name.head? ≠ some '.' ∧
    staleName p.dir fs (visit ans e) = some name ∧ extension e ≠ some (os "log".toList) := by
  obtain ⟨name, hname⟩ := h
  obtain ⟨he, hext, hdot, -⟩ := staleName_eq_some hname
  rw [visit_entry] at he hext
  exact ⟨name, he, hdot, hname, hext⟩

/-- **What makes an entry stale** is its name, what `connect(2)` answers there, and that it is a socket no one listens at. -/
theorem Plain.isStale_iff (hplain : Plain p.dir fs) (he : EntryName e) : IsStale p.dir ans fs e ↔
    (∃ name, e = os name ∧ extension e ≠ some (os "log".toList) ∧ name.head? ≠ some '.' ∧ (ans e).probe = none ∧
      Fits (joinEntry p.dir e)) ∧ fs.look (joinEntry p.dir e) = some (.socket false) := by
  rw [← hplain.stat_socket_iff he.no_slash]
  constructor
  · rintro ⟨name, hname⟩
    obtain ⟨hos, hext, hdot, hconn⟩ := staleName_eq_some hname
    obtain ⟨hprobe, hfits, -, hstat⟩ := connectSocket_refused_iff.1 hconn
    rw [visit_entry] at hos hext
    rw [visit_answer] at hprobe
    rw [hos] at hext hprobe ⊢
    rw [joinEntry_os]
    exact ⟨⟨name, rfl, hext, hdot, hprobe, hfits⟩, hstat⟩
  · rintro ⟨⟨name, rfl, hext, hdot, hprobe, hfits⟩, hstat⟩
    refine ⟨name, ?_⟩
    rw [joinEntry_os] at hfits hstat
    have hnonempty : join p.dir name ≠ [] := by
      rw [join]
      split
      · rename_i hlast
        intro hnil
        rw [(List.append_eq_nil_iff.1 hnil).1] at hlast
        cases hlast
      · simp
    have hconn := connectSocket_refused_iff.2 ⟨hprobe, hfits, hnonempty, hstat⟩
    simp only [staleName, visit_entry, visit_answer, toStringLossy_os, joinEntry_os, toStr_os, Option.getD_some, hdot, hstat, hconn,
      Kind.isSocket, if_false, true_and, if_true]
    exact if_neg hext

theorem EntryName.log {name : Str} (h : EntryName (os name)) : EntryName (os name ++ os ".log".toList) where
  nonempty hnil := h.nonempty (List.append_eq_nil_iff.1 hnil).1
  no_slash hmem := by
    rcases List.mem_append.1 hmem with hmem | hmem
    · exact h.no_slash hmem
    · revert hmem
      decide
  not_dot heq := by
    have hlen := congrArg List.length heq
    rw [List.length_append] at hlen
    exact absurd hlen (by simp [os])
  not_dots heq := by
    have hlen := congrArg List.length heq
    rw [List.length_append] at hlen
    exact absurd hlen (by simp [os])

/-- `rm_stale_sockets` on the names: a stale socket goes with its log. -/
def staleRule (p : Program) (ans : Answers) (fs : Fs) : Rule OsStr where
  hit _ e := IsStale p.dir ans fs e
  takes e := {e, e ++ os ".log".toList}
  tells e := (ans e).done.opens = true
  note := appLogName
  note_stays := by
    rintro - e hstale hnote
    obtain ⟨name, rfl, hdot, -, -⟩ := hstale.name
    rcases hnote with hnote | hnote
    · exact hdot (by rw [← os_injective hnote]; rfl)
    · have hname : os ".ztch-app".toList ++ os ".log".toList = os name ++ os ".log".toList := hnote
      exact hdot (by rw [← os_injective (List.append_cancel_right hname)]; rfl)

variable {strerror : Errno → Str}

theorem staleStep_of_not_stale (h : ¬ IsStale p.dir ans fs e) :
    staleStep strerror p.dir p.appLog fs (visit ans e) = (fs, []) := by
  rw [staleStep]
  cases hname : staleName p.dir fs (visit ans e) with
  | none => rfl
  | some name => exact absurd ⟨name, hname⟩ h

/-- **A stale socket's visit** takes the socket and its log, and may leave the application log. -/
theorem staleStep_names (hplain : Plain p.dir fs) (he : EntryName e) (h : IsStale p.dir ans fs e) (fs₀ : Fs) :
    names p.dir (staleStep strerror p.dir p.appLog fs (visit ans e)).1 = (staleRule p ans fs₀).took (names p.dir fs) e ∧
      Shed p.dir fs (staleStep strerror p.dir p.appLog fs (visit ans e)).1 := by
  have hlook := ((hplain.isStale_iff he).1 h).2
  have hnote := (staleRule p ans fs).note_stays (names p.dir fs) e h
  obtain ⟨name, rfl, -, hname, -⟩ := h.name
  have happ : os name ≠ appLogName := fun heq => hnote (.inl heq.symm)
  have happLog : os name ++ os ".log".toList ≠ appLogName := fun heq => hnote (.inr heq.symm)
  have hlog : os (join p.dir (name ++ ".log".toList)) = joinEntry p.dir (os name ++ os ".log".toList) := by
    rw [← joinEntry_os, os_append]
  have hacts : (staleStep strerror p.dir p.appLog fs (visit ans (os name))).1 =
      record (join p.dir appLogFileName)
        (removeFileIfExists strerror p.appLog
          (removeFileIfExists strerror p.appLog fs (joinEntry p.dir (os name)) (ans (os name)).sock)
          (joinEntry p.dir (os name ++ os ".log".toList)) (ans (os name)).log)
        { (ans (os name)).done with level := .info, message := "removed ".toList ++ name } := by
    rw [staleStep, hname, ← hlog]
    rfl
  obtain ⟨hsock, hshed⟩ := remove_names strerror p.appLog hplain he happ (by rw [hlook]; simp) (ans (os name)).sock
  have hplain' := hplain.shed hshed
  have hnonempty : name ≠ [] := fun hnil => he.nonempty (by rw [hnil]; rfl)
  obtain ⟨hsecond, hshed'⟩ := remove_names strerror p.appLog hplain' he.log happLog
    (hplain'.not_directory _ he.log happLog (extension_log hnonempty)) (ans (os name)).log
  obtain ⟨hrecord, hshed''⟩ := record_names (hplain'.shed hshed')
    { (ans (os name)).done with level := .info, message := "removed ".toList ++ name }
  rw [hacts]
  refine ⟨?_, (hshed.trans hshed').trans hshed''⟩
  rw [hrecord, hsecond, hsock]
  ext x
  simp only [noted, Rule.took, staleRule, Set.mem_ofPred_eq, Set.mem_insert_iff, Set.mem_singleton_iff, not_or, and_assoc]

/-- What is stale was stale, whatever has gone. -/
theorem IsStale.of_shed (hplain : Plain p.dir fs) (he : EntryName e) (hshed : Shed p.dir fs fs')
    (h : IsStale p.dir ans fs' e) : IsStale p.dir ans fs e := by
  obtain ⟨hname, hlook⟩ := ((hplain.shed hshed).isStale_iff he).1 h
  exact (hplain.isStale_iff he).2 ⟨hname, hshed.look_of_some (by simp) hlook⟩

/-- What was stale, and is not gone, still is. -/
theorem IsStale.shed (hplain : Plain p.dir fs) (he : EntryName e) (hshed : Shed p.dir fs fs')
    (hthere : e ∈ names p.dir fs') (h : IsStale p.dir ans fs e) : IsStale p.dir ans fs' e := by
  obtain ⟨hname, hlook⟩ := (hplain.isStale_iff he).1 h
  refine ((hplain.shed hshed).isStale_iff he).2 ⟨hname, ?_⟩
  rcases hshed.look e with heq | hgone | ⟨happ, -⟩
  · rw [heq, hlook]
  · exact absurd hgone hthere
  · obtain ⟨name, -, hext, -⟩ := hname
    exact absurd (by rw [happ]; decide) hext

theorem IsStale.there (hplain : Plain p.dir fs) (he : EntryName e) (h : IsStale p.dir ans fs e) :
    e ∈ names p.dir fs := by
  rw [mem_names, ((hplain.isStale_iff he).1 h).2]
  exact Option.some_ne_none _

/-- The sockets and logs that go with others are not stale themselves. -/
theorem not_mem_takes {x : OsStr} (he : IsStale p.dir ans fs e) (hx : EntryName x) (hstale : IsStale p.dir ans fs x)
    (hne : e ≠ x) : e ∉ (staleRule p ans fs).takes x := by
  obtain ⟨name, rfl, -, -, -⟩ := hstale.name
  obtain ⟨-, -, -, -, hext⟩ := he.name
  rintro (h | h)
  · exact hne h
  · apply hext
    rw [show e = os name ++ os ".log".toList from h]
    exact extension_log (fun hnil => hx.nonempty (by rw [hnil]; rfl))

/-- **`rm_stale_sockets` takes what is stale**, with its log, whatever the order. -/
theorem run_staleStep (hplain : Plain p.dir fs) {fs₁ : Fs} (hshed : Shed p.dir fs fs₁)
    (hnames : names p.dir fs ⊆ names p.dir fs₁) : ∀ {l : List OsStr}, l.Nodup → (∀ e ∈ l, EntryName e) →
    names p.dir (run (staleStep strerror p.dir p.appLog) fs₁ (l.map (visit ans))).1 =
      (staleRule p ans fs).swept (names p.dir fs₁) {e | e ∈ l} ∧
    Shed p.dir fs (run (staleStep strerror p.dir p.appLog) fs₁ (l.map (visit ans))).1 := by
  intro l
  induction l using List.reverseRecOn with
  | nil =>
    intro _ _
    refine ⟨?_, hshed⟩
    simp only [List.map_nil, Machine.run_nil, List.not_mem_nil, Set.ofPred_false, Rule.swept_empty]
  | append_singleton l e ih =>
    intro hnodup hentry
    rw [← List.concat_eq_append, List.nodup_concat] at hnodup
    obtain ⟨hnew, hnodup⟩ := hnodup
    have he := hentry e (List.mem_append_right l List.mem_cons_self)
    have hrest : ∀ x ∈ l, EntryName x := fun x hx => hentry x (List.mem_append_left _ hx)
    obtain ⟨hset, hrun⟩ := ih hnodup hrest
    rw [List.map_append, Machine.run_append, List.map_singleton, Machine.run_singleton, Rule.setOf_mem_concat]
    generalize (run (staleStep strerror p.dir p.appLog) fs₁ (l.map (visit ans))).1 = fs' at hset hrun
    have hsame : IsStale p.dir ans fs' e ↔ IsStale p.dir ans fs e := by
      refine ⟨fun h => h.of_shed hplain he hrun, fun h => h.shed hplain he hrun ?_⟩
      rw [hset]
      refine .inl ⟨hnames (h.there hplain he), ?_⟩
      rintro ⟨x, hx, hstale, htakes⟩
      exact not_mem_takes h (hrest x hx) hstale (fun hex => hnew (hex ▸ hx)) htakes
    by_cases h : IsStale p.dir ans fs e
    · obtain ⟨hstep, hshed'⟩ := staleStep_names (hplain.shed hrun) he (hsame.2 h) fs
      rw [Rule.swept_insert_of_hit (r := staleRule p ans fs) h, ← hset]
      exact ⟨hstep, hrun.trans hshed'⟩
    · rw [Rule.swept_insert_of_not_hit (r := staleRule p ans fs) h, ← hset,
        staleStep_of_not_stale (fun h' => h (hsame.1 h'))]
      exact ⟨rfl, hrun⟩

/-- `rm_orphaned_logs` on the names: a log stays where there is a file of its stem's name. -/
def logRule (ans : Answers) : Kept OsStr where
  needy e := extension e = some (os "log".toList) ∧ e ≠ appLogName
  keeper e := os (toStringLossy (fileStem e))
  tells e := (ans e).done.opens = true
  note := appLogName
  note_stays h := h.2 rfl

theorem stem_no_slash (he : EntryName e) : .chr '/' ∉ os (toStringLossy (fileStem e)) := by
  intro hmem
  obtain ⟨c, hc, hslash⟩ := List.mem_map.1 hmem
  obtain ⟨o, ho, hoc⟩ := List.mem_map.1 hc
  rw [OsChar.chr.injEq] at hslash
  rw [hslash] at hoc
  cases o with
  | chr c' =>
    have hc' : c' = '/' := hoc
    exact he.no_slash (mem_of_mem_fileStem (hc' ▸ ho))
  | bad bytes =>
    have hbad : '\uFFFD' = '/' := hoc
    exact absurd hbad (by decide)

/-- **What makes a log an orphan** is its name, and that there is no file of its stem's. -/
theorem Plain.orphan_iff (ans : Answers) (hplain : Plain p.dir fs) (he : EntryName e) :
    (∃ stem, orphanName p.dir fs (visit ans e) = some stem) ↔ (logRule ans).Stray (names p.dir fs) e := by
  have hstat := hplain.stat_iff (stem_no_slash he)
  have hkeeper : (logRule ans).keeper e = os (toStringLossy (fileStem e)) := rfl
  rw [joinEntry_os] at hstat
  rw [Kept.Stray, hkeeper, ← hstat]
  simp only [orphanName_eq_some_iff, visit_entry]
  constructor
  · rintro ⟨stem, hext, happ, rfl, hno⟩
    exact ⟨⟨hext, happ⟩, hno⟩
  · rintro ⟨⟨hext, happ⟩, hno⟩
    exact ⟨_, hext, happ, rfl, hno⟩

theorem orphanStep_of_not_stray (h : ¬ ∃ stem, orphanName p.dir fs (visit ans e) = some stem) :
    orphanStep strerror p.dir p.appLog fs (visit ans e) = (fs, []) := by
  rw [orphanStep]
  cases hname : orphanName p.dir fs (visit ans e) with
  | none => rfl
  | some stem => exact absurd ⟨stem, hname⟩ h

/-- **An orphaned log's visit** takes the log, and may leave the application log. -/
theorem orphanStep_names (strerror : Errno → Str) (ans : Answers) (hplain : Plain p.dir fs) (he : EntryName e) :
    names p.dir (orphanStep strerror p.dir p.appLog fs (visit ans e)).1 = (logRule ans).rule.step (names p.dir fs) e ∧
      Shed p.dir fs (orphanStep strerror p.dir p.appLog fs (visit ans e)).1 := by
  have horphan := hplain.orphan_iff ans he
  by_cases h : ∃ stem, orphanName p.dir fs (visit ans e) = some stem
  · have hstray := horphan.1 h
    obtain ⟨stem, hstem⟩ := h
    have hacts : (orphanStep strerror p.dir p.appLog fs (visit ans e)).1 =
        record (join p.dir appLogFileName) (removeFileIfExists strerror p.appLog fs (joinEntry p.dir e) (ans e).log)
          { (ans e).done with level := .info, message := "removed ".toList ++ stem } := by
      rw [orphanStep, hstem]
      rfl
    obtain ⟨hlog, hshed⟩ := remove_names strerror p.appLog hplain he hstray.1.2
      (hplain.not_directory e he hstray.1.2 hstray.1.1) (ans e).log
    obtain ⟨hnote, hshed'⟩ := record_names (hplain.shed hshed)
      { (ans e).done with level := .info, message := "removed ".toList ++ stem }
    rw [hacts, Rule.step_of_hit (r := (logRule ans).rule) hstray]
    refine ⟨?_, hshed.trans hshed'⟩
    rw [hnote, hlog]
    rfl
  · rw [orphanStep_of_not_stray h, Rule.step_of_not_hit (r := (logRule ans).rule) (fun h' => h (horphan.2 h'))]
    exact ⟨rfl, .refl p.dir fs⟩

/-- **`rm_orphaned_logs` is a sweep** of the names. -/
theorem run_orphanStep (strerror : Errno → Str) (ans : Answers) :
    ∀ {l : List OsStr} {fs : Fs}, Plain p.dir fs → (∀ e ∈ l, EntryName e) →
    names p.dir (run (orphanStep strerror p.dir p.appLog) fs (l.map (visit ans))).1 =
      (logRule ans).rule.sweep (names p.dir fs) l ∧
    Shed p.dir fs (run (orphanStep strerror p.dir p.appLog) fs (l.map (visit ans))).1
  | [], fs, _, _ => ⟨rfl, .refl p.dir fs⟩
  | e :: l, fs, hplain, hentry => by
    obtain ⟨hstep, hshed⟩ := orphanStep_names strerror ans hplain (hentry e List.mem_cons_self)
    obtain ⟨hrest, hshed'⟩ := run_orphanStep strerror ans (hplain.shed hshed) (fun x hx => hentry x (List.mem_cons_of_mem e hx))
    rw [List.map_cons, Machine.run_cons, Rule.sweep_cons, ← hstep]
    exact ⟨hrest, hshed.trans hshed'⟩

/-! ## The whole command -/

open Command (afterWarning afterStale afterOrphans)

/-- The orders in which an `rm -a` finds the directory's entries, the second time after it has removed the stale sockets. -/
structure Orders (strerror : Errno → Str) (p : Program) (fs : Fs) (ans : Answers) (named : Option RecordAns) where
  socks : List OsStr
  logs : List OsStr
  socks_lists : Lists p.dir (afterWarning strerror p fs named) socks
  logs_lists : Lists p.dir (afterStale strerror p fs named (socks.map (visit ans))).1 logs

namespace Orders

variable {named : Option RecordAns}

/-- `rm -a` in these orders. -/
def rmAll (o : Orders strerror p fs ans named) (done : RecordAns) : Fs :=
  Zatch.rmAll strerror p.dir p.appLog fs named (o.socks.map (visit ans)) (o.logs.map (visit ans)) done

def stale (o : Orders strerror p fs ans named) : Fs × List Str :=
  afterStale strerror p fs named (o.socks.map (visit ans))

def orphans (o : Orders strerror p fs ans named) : Fs × List Str :=
  afterOrphans strerror p fs named (o.socks.map (visit ans)) (o.logs.map (visit ans))

end Orders

/-- What `rm -a` is to do: it leaves the same files whatever the orders, nothing that `list -a` would show as stale or
exited, and nothing that another `rm -a` would remove. -/
structure Clean (strerror : Errno → Str) (p : Program) (fs : Fs) (ans : Answers) (named : Option RecordAns)
    (done : RecordAns) : Prop where
  same : ∀ o o' : Orders strerror p fs ans named, entries p.dir (o.rmAll done) = entries p.dir (o'.rmAll done)
  unlisted : ∀ (o : Orders strerror p fs ans named) (quiet : Bool) (now : Nat) (socks logs : List Look) (a : RecordAns),
    Lists p.dir (o.rmAll done) (socks.map Look.entry) → Lists p.dir (o.rmAll done) (logs.map Look.entry) →
    (∀ v ∈ socks, v.probe = (ans v.entry).probe) →
    let lines := (list p.appLog p.dir (o.rmAll done) true quiet now socks logs a).2
    ¬ Shows lines .stale ∧ ¬ Shows lines .exited
  again : ∀ (o : Orders strerror p fs ans named) (ans' : Answers) (named' : Option RecordAns) (done' : RecordAns),
    (∀ e, (ans' e).probe = (ans e).probe) → ∀ o' : Orders strerror p (o.rmAll done) ans' named',
    o'.stale.2 = [] ∧ o'.orphans.2 = [] ∧ entries p.dir (o.rmAll done) ⊆ entries p.dir (o'.rmAll done')

/-- The names that stay when the stale sockets and their logs go, with the application log's if it is there by then. -/
def leftNames (p : Program) (fs : Fs) (ans : Answers) (named : Option RecordAns) : Set OsStr :=
  (staleRule p ans fs).swept (noted (named.any (·.opens)) (names p.dir fs)) {e | EntryName e}

/-- No log that stays then has an orphaned log for its session, and none is an orphan only until another's removal makes
the application log. -/
def Untangled (p : Program) (fs : Fs) (ans : Answers) (named : Option RecordAns) : Prop :=
  (logRule ans).Calm (leftNames p fs ans named) {e | EntryName e ∧ e ∈ leftNames p fs ans named}

variable {named : Option RecordAns} {done : RecordAns}

theorem afterWarning_names (strerror : Errno → Str) (hplain : Plain p.dir fs) (named : Option RecordAns) :
    names p.dir (afterWarning strerror p fs named) = noted (named.any (·.opens)) (names p.dir fs) ∧
      Shed p.dir fs (afterWarning strerror p fs named) := by
  cases named with
  | none =>
    refine ⟨?_, .refl p.dir fs⟩
    ext e
    simp [noted, afterWarning, warnedActs, actsOn]
  | some a => exact record_names hplain { a with level := .warn, message := rmAllWarning }

/-- **After the first pass** the names are `leftNames`. -/
theorem afterStale_names (ans : Answers) (hplain : Plain p.dir fs) {socks : List OsStr}
    (hsocks : Lists p.dir (afterWarning strerror p fs named) socks) :
    names p.dir (afterStale strerror p fs named (socks.map (visit ans))).1 = leftNames p fs ans named ∧
      Shed p.dir fs (afterStale strerror p fs named (socks.map (visit ans))).1 := by
  obtain ⟨hwarned, hshed⟩ := afterWarning_names strerror hplain named
  have hsub : names p.dir fs ⊆ names p.dir (afterWarning strerror p fs named) := by
    rw [hwarned]
    exact subset_noted _ _
  obtain ⟨hset, hshed'⟩ := run_staleStep hplain hshed hsub hsocks.nodup (fun e he => ((hsocks.mem_iff e).1 he).1)
  refine ⟨?_, hshed'⟩
  rw [afterStale, hset, leftNames, ← hwarned]
  apply Rule.swept_congr
  intro e he
  rw [Set.mem_ofPred_eq, Set.mem_ofPred_eq, hsocks.mem_iff, entries, Set.mem_ofPred_eq]
  exact and_iff_left_of_imp (fun hentry => hsub (IsStale.there hplain hentry he))

theorem Orders.stale_names (o : Orders strerror p fs ans named) (hplain : Plain p.dir fs) :
    names p.dir o.stale.1 = leftNames p fs ans named ∧ Shed p.dir fs o.stale.1 := afterStale_names ans hplain o.socks_lists

/-- After the second pass there is only the record of the count. -/
theorem Orders.rmAll_eq (o : Orders strerror p fs ans named) (done : RecordAns) :
    ∃ n : Note, n.opens = done.opens ∧ o.rmAll done = record (join p.dir appLogFileName) o.orphans.1 n :=
  ⟨{ done with level := .info, message := rmAllMessage (o.stale.2.length + o.orphans.2.length) }, rfl, rfl⟩

/-- **At the end** the names are what a sweep leaves of them. -/
theorem Orders.rmAll_names (o : Orders strerror p fs ans named) (hplain : Plain p.dir fs) (done : RecordAns) :
    names p.dir (o.rmAll done) = noted done.opens ((logRule ans).rule.sweep (leftNames p fs ans named) o.logs) ∧
      Shed p.dir o.stale.1 (o.rmAll done) := by
  obtain ⟨hleft, hshed⟩ := o.stale_names hplain
  have hplain' := hplain.shed hshed
  obtain ⟨hset, hshed'⟩ := run_orphanStep strerror ans hplain'
    (fun e he => ((o.logs_lists.mem_iff e).1 he).1)
  obtain ⟨n, hopens, hrm⟩ := o.rmAll_eq done
  obtain ⟨hnote, hshed''⟩ := record_names (hplain'.shed hshed') n
  rw [hset, hleft, hopens] at hnote
  rw [hrm]
  exact ⟨hnote, hshed'.trans hshed''⟩

theorem Orders.plain (o : Orders strerror p fs ans named) (hplain : Plain p.dir fs) (done : RecordAns) :
    Plain p.dir (o.rmAll done) := (hplain.shed (o.stale_names hplain).2).shed (o.rmAll_names hplain done).2

/-- Nothing is stale any more. -/
theorem Orders.not_stale (o : Orders strerror p fs ans named) (hplain : Plain p.dir fs) (done : RecordAns)
    (he : EntryName e) : ¬ IsStale p.dir ans (o.rmAll done) e := by
  intro h
  obtain ⟨hleft, hshed⟩ := o.stale_names hplain
  obtain ⟨-, hshed'⟩ := o.rmAll_names hplain done
  have hstale := h.of_shed (hplain.shed hshed) he hshed'
  have hmem := hstale.there (hplain.shed hshed) he
  rw [hleft] at hmem
  rcases hmem with ⟨-, hno⟩ | ⟨happ, -⟩
  · exact hno ⟨e, he, hstale.of_shed hplain he hshed, Set.mem_insert _ _⟩
  · obtain ⟨-, -, -, -, hext⟩ := h.name
    exact hext (by rw [happ]; exact (by decide : extension appLogName = some (os "log".toList)))

theorem Orders.mem_logs_iff (o : Orders strerror p fs ans named) (hplain : Plain p.dir fs) :
    {e | e ∈ o.logs} = {e | EntryName e ∧ e ∈ leftNames p fs ans named} := by
  ext e
  rw [Set.mem_ofPred_eq, o.logs_lists.mem_iff, entries, ← (o.stale_names hplain).1]
  exact Iff.rfl

/-- **In an untangled directory** all orders leave the same. -/
theorem Orders.untangled_names (o : Orders strerror p fs ans named) (hplain : Plain p.dir fs)
    (h : Untangled p fs ans named) (done : RecordAns) :
    names p.dir (o.rmAll done) = noted done.opens
      ((logRule ans).rule.swept (leftNames p fs ans named) {e | EntryName e ∧ e ∈ leftNames p fs ans named}) := by
  have hlogs := o.mem_logs_iff hplain
  rw [Untangled, ← hlogs] at h
  rw [(o.rmAll_names hplain done).1, Rule.sweep_of_steady o.logs_lists.nodup h.steady, hlogs]

/-- Nothing is an orphan any more, whatever records come after. -/
theorem Orders.not_stray (o : Orders strerror p fs ans named) (hplain : Plain p.dir fs)
    (h : Untangled p fs ans named) {s : Set OsStr} (hs : names p.dir (o.rmAll done) ⊆ s)
    (he : e ∈ entries p.dir (o.rmAll done)) : ¬ (logRule ans).Stray s e := by
  obtain ⟨hentry, hmem⟩ := he
  rw [o.untangled_names hplain h] at hmem hs
  intro hstray
  have hswept := hmem.resolve_right (fun hnote => hstray.1.2 hnote.1)
  have hleft : e ∈ leftNames p fs ans named := by
    rcases hswept with ⟨hleft, -⟩ | ⟨hnote, -⟩
    · exact hleft
    · exact absurd hnote hstray.1.2
  exact h.no_stray ⟨hentry, hleft⟩ ((subset_noted _ _).trans hs) hswept hstray

/-- **A second `rm -a`** finds nothing to remove: at its second reading too the directory is as it was after the warning. -/
theorem Orders.again_still (o : Orders strerror p fs ans named) (hplain : Plain p.dir fs) (h : Untangled p fs ans named)
    {ans' : Answers} {named' : Option RecordAns} (hprobe : ∀ e, (ans' e).probe = (ans e).probe)
    (o' : Orders strerror p (o.rmAll done) ans' named') :
    o'.stale = (afterWarning strerror p (o.rmAll done) named', []) ∧
      o'.orphans = (afterWarning strerror p (o.rmAll done) named', []) := by
  have hplain' := o.plain hplain done
  obtain ⟨hwarned, hshed⟩ := afterWarning_names strerror hplain' named'
  have hstale : o'.stale = (afterWarning strerror p (o.rmAll done) named', []) := by
    apply Machine.run_still
    intro v hv
    obtain ⟨e, he, rfl⟩ := List.mem_map.1 hv
    have hentry := ((o'.socks_lists.mem_iff e).1 he).1
    refine staleStep_of_not_stale (fun hstale => o.not_stale hplain done hentry ?_)
    rw [hplain'.isStale_iff hentry, ← hprobe e, ← hplain'.isStale_iff hentry]
    exact hstale.of_shed hplain' hentry hshed
  refine ⟨hstale, ?_⟩
  rw [Orders.orphans, afterOrphans, ← Orders.stale, hstale]
  apply Machine.run_still
  intro v hv
  obtain ⟨e, he, rfl⟩ := List.mem_map.1 hv
  have hentry := (o'.logs_lists.mem_iff e).1 he
  rw [← Orders.stale, hstale] at hentry
  refine orphanStep_of_not_stray (fun horphan => ?_)
  have hstray : (logRule ans).Stray _ e := ((hplain'.shed hshed).orphan_iff ans' hentry.1).1 horphan
  have hmem := hentry.2
  rw [hwarned] at hmem hstray
  rcases hmem with hmem | ⟨happ, -⟩
  · exact o.not_stray hplain h (subset_noted _ _) ⟨hentry.1, hmem⟩ hstray
  · exact hstray.1.2 happ

theorem clean_of_untangled (hplain : Plain p.dir fs) (h : Untangled p fs ans named) :
    Clean strerror p fs ans named done where
  same o o' := by
    rw [entries, entries, o.untangled_names hplain h, o'.untangled_names hplain h]
  unlisted o quiet now socks logs a hsocks hlogs hprobe := by
    apply list_shows (fun v => ans v.entry) (fun v hv => (hprobe v hv).symm)
    · intro v hv
      have hentry := ((hsocks.mem_iff v.entry).1 (List.mem_map_of_mem hv)).1
      exact Option.eq_none_iff_forall_ne_some.2 (fun name hname => o.not_stale hplain done hentry ⟨name, hname⟩)
    · intro v hv
      have hentry := (hlogs.mem_iff v.entry).1 (List.mem_map_of_mem hv)
      refine Option.eq_none_iff_forall_ne_some.2 (fun stem hstem => ?_)
      exact o.not_stray hplain h (fun _ h => h) hentry (((o.plain hplain done).orphan_iff ans hentry.1).1 ⟨stem, hstem⟩)
  again o ans' named' done' hprobe o' := by
    obtain ⟨hstale, horphans⟩ := o.again_still hplain h hprobe o'
    obtain ⟨hwarned, hshed⟩ := afterWarning_names strerror (o.plain hplain done) named'
    obtain ⟨n, -, hrm⟩ := o'.rmAll_eq done'
    refine ⟨congrArg Prod.snd hstale, congrArg Prod.snd horphans, fun e he => ⟨he.1, ?_⟩⟩
    rw [hrm, horphans, (record_names ((o.plain hplain done).shed hshed) n).1, hwarned]
    exact subset_noted _ _ (subset_noted _ _ he.2)

theorem exists_lists (h : (entries dir fs).Finite) : ∃ l, Lists dir fs l :=
  ⟨h.toFinset.toList, h.toFinset.nodup_toList, fun e => by simp⟩

theorem Lists.perm {l l' : List OsStr} (h : Lists dir fs l) (hperm : l'.Perm l) : Lists dir fs l' where
  nodup := hperm.nodup_iff.2 h.nodup
  mem_iff e := hperm.mem_iff.trans (h.mem_iff e)

theorem Shed.finite (h : Shed dir fs fs') (hfin : (entries dir fs).Finite) : (entries dir fs').Finite := by
  refine (hfin.insert appLogName).subset ?_
  rintro e ⟨hentry, hmem⟩
  rcases h.look e with heq | hgone | ⟨happ, -⟩
  · refine .inr ⟨hentry, ?_⟩
    rwa [mem_names, ← heq]
  · exact absurd hgone hmem
  · exact .inl happ

/-- **In a tangled directory** two orders leave different files. -/
theorem untangled_of_same (hplain : Plain p.dir fs) (hfin : (entries p.dir fs).Finite)
    (hsame : ∀ o o' : Orders strerror p fs ans named, entries p.dir (o.rmAll done) = entries p.dir (o'.rmAll done)) :
    Untangled p fs ans named := by
  by_contra hno
  obtain ⟨-, hshed⟩ := afterWarning_names strerror hplain named
  obtain ⟨socks, hsocks⟩ := exists_lists (hshed.finite hfin)
  obtain ⟨-, hshed'⟩ := afterStale_names ans hplain hsocks
  obtain ⟨l, hl⟩ := exists_lists (hshed'.finite hfin)
  have hset := (⟨socks, l, hsocks, hl⟩ : Orders strerror p fs ans named).mem_logs_iff hplain
  rw [Untangled, ← hset] at hno
  have hin : ∀ x ∈ l, x ∈ leftNames p fs ans named := fun x hx => ((Set.ext_iff.1 hset x).1 hx).2
  obtain ⟨l₁, l₂, x, hl₁, hl₂, hx, hneedy, hstays, hgoes⟩ := Kept.exists_orders hl.nodup hin hno
  have hsame := hsame ⟨socks, l₁, hsocks, hl.perm hl₁⟩ ⟨socks, l₂, hsocks, hl.perm hl₂⟩
  have hentry := ((hl.mem_iff x).1 hx).1
  have hmem : ∀ o : Orders strerror p fs ans named,
      x ∈ entries p.dir (o.rmAll done) ↔ x ∈ (logRule ans).rule.sweep (leftNames p fs ans named) o.logs := by
    intro o
    rw [entries, Set.mem_ofPred_eq, (o.rmAll_names hplain done).1, and_iff_right hentry]
    exact or_iff_left (fun h => hneedy.2 h.1)
  rw [Set.ext_iff] at hsame
  exact hgoes ((hmem _).1 ((hsame x).1 ((hmem _).2 hstays)))

/-- **What `rm -a` leaves is the same in every order, and clean**, exactly in a directory where no log that stays after
the stale sockets has an orphaned log for its session, and none is an orphan only until the removal of another makes the
application log. -/
theorem rmAll_clean_iff (strerror : Errno → Str) (p : Program) (fs : Fs) (ans : Answers) (named : Option RecordAns)
    (done : RecordAns) (hplain : Plain p.dir fs) (hfin : (entries p.dir fs).Finite) :
    Clean strerror p fs ans named done ↔ Untangled p fs ans named :=
  ⟨fun h => untangled_of_same hplain hfin h.same, clean_of_untangled hplain⟩

open Command (ztch noRecord)

def quietly : Answers := fun _ => ⟨none, noRecord, noRecord, noRecord⟩

/-- A stale socket with its log, the log of a session that is gone, and a live session with its log. -/
def busyFiles : Fs :=
  ((((fileAt (join ztch.dir "a".toList) (.socket false)).make (join ztch.dir "a.log".toList) (.regular [])).make
    (join ztch.dir "b.log".toList) (.regular [])).make (join ztch.dir "c".toList) (.socket true)).make
      (join ztch.dir "c.log".toList) (.regular [])

theorem busyFiles_look (e : OsStr) : busyFiles.look (joinEntry ztch.dir e) =
    if e = os "c.log".toList then some (.regular []) else if e = os "c".toList then some (.socket true)
    else if e = os "b.log".toList then some (.regular []) else if e = os "a.log".toList then some (.regular [])
    else if e = os "a".toList then some (.socket false) else none := by
  simp only [busyFiles, FileSystem.Fs.make_look, fileAt_look, ← joinEntry_os, joinEntry_inj, Kind.blank]

theorem busyFiles_names {e : OsStr} (he : e ∈ names ztch.dir busyFiles) :
    e ∈ [os "c.log".toList, os "c".toList, os "b.log".toList, os "a.log".toList, os "a".toList] := by
  by_contra hne
  simp only [List.mem_cons, List.not_mem_nil, or_false, not_or] at hne
  obtain ⟨h1, h2, h3, h4, h5⟩ := hne
  exact he (by rw [busyFiles_look, if_neg h1, if_neg h2, if_neg h3, if_neg h4, if_neg h5])

theorem rmAll_clean_iff_socket : Clean (fun _ => []) ztch busyFiles quietly none noRecord := by
  have hplain : Plain ztch.dir busyFiles := by
    refine ⟨fun e _ target => ?_, fun _ _ _ _ => rfl, fun e _ _ _ => ?_⟩ <;> rw [busyFiles_look] <;> split_ifs <;> simp
  have hfin : (entries ztch.dir busyFiles).Finite := (List.finite_toSet _).subset (fun e he => busyFiles_names he.2)
  refine (rmAll_clean_iff (fun _ => []) ztch busyFiles quietly none noRecord hplain hfin).2 ?_
  -- a log that is there has the name of no log for its stem
  have hneedy : ∀ e ∈ leftNames ztch busyFiles quietly none, (logRule quietly).needy e →
      e = os "c.log".toList ∨ e = os "b.log".toList ∨ e = os "a.log".toList := by
    rintro e (⟨he | ⟨happ, -⟩, -⟩ | ⟨happ, -⟩) hneedy
    · have hin := busyFiles_names he
      simp only [List.mem_cons, List.not_mem_nil, or_false] at hin
      rcases hin with rfl | rfl | rfl | rfl | rfl
      · exact .inl rfl
      · exact absurd hneedy.1 (by decide)
      · exact .inr (.inl rfl)
      · exact .inr (.inr rfl)
      · exact absurd hneedy.1 (by decide)
    · exact absurd happ hneedy.2
    · exact absurd happ hneedy.2
  have hkeeper : ∀ e ∈ leftNames ztch busyFiles quietly none, (logRule quietly).needy e →
      extension ((logRule quietly).keeper e) ≠ some (os "log".toList) := by
    intro e he hn
    rcases hneedy e he hn with rfl | rfl | rfl <;> decide
  refine ⟨fun x hx y _ hn hstray heq => ?_, fun x hx _ _ hstray _ _ _ heq => ?_⟩
  · exact hkeeper x hx.2 hn (heq ▸ hstray.1.1)
  · exact hkeeper x hx.2 hstray.1 (by rw [heq]; decide)

/-- The log of the session `a` and the log of the session `a.log`, both gone. -/
def twoLogs : Fs :=
  (fileAt (join ztch.dir "a.log".toList) (.regular [])).make (join ztch.dir "a.log.log".toList) (.regular [])

theorem twoLogs_look (e : OsStr) : twoLogs.look (joinEntry ztch.dir e) =
    if e = os "a.log.log".toList ∨ e = os "a.log".toList then some (.regular []) else none := by
  rw [twoLogs, FileSystem.Fs.make_look, fileAt_look, ← joinEntry_os, ← joinEntry_os]
  simp only [joinEntry_inj, Kind.blank]
  by_cases he : e = os "a.log.log".toList
  · rw [if_pos he, if_pos (.inl he)]
  · rw [if_neg he]
    simp only [he, false_or]

theorem twoLogs_plain : Plain ztch.dir twoLogs := by
  refine ⟨fun e _ target => ?_, fun _ _ _ _ => rfl, fun e _ _ _ => ?_⟩ <;> rw [twoLogs_look] <;> split <;> simp

theorem mem_twoLogs_iff {e : OsStr} :
    e ∈ names ztch.dir twoLogs ↔ e = os "a.log.log".toList ∨ e = os "a.log".toList := by
  rw [mem_names, twoLogs_look]
  split
  · exact iff_of_true (Option.some_ne_none _) ‹_›
  · exact iff_of_false (fun h => h rfl) ‹_›

theorem twoLogs_not_stale {e : OsStr} (he : EntryName e) : ¬ IsStale ztch.dir quietly twoLogs e := by
  intro hstale
  have hlook := ((twoLogs_plain.isStale_iff he).1 hstale).2
  rw [twoLogs_look] at hlook
  split at hlook <;> cases hlook

theorem twoLogs_left {e : OsStr} :
    e ∈ leftNames ztch twoLogs quietly none ↔ e = os "a.log.log".toList ∨ e = os "a.log".toList := by
  rw [← mem_twoLogs_iff]
  constructor
  · rintro (⟨he | ⟨-, hno⟩, -⟩ | ⟨-, x, hx, hs, -⟩)
    · exact he
    · cases hno
    · exact absurd hs (twoLogs_not_stale hx)
  · intro he
    refine .inl ⟨.inl he, ?_⟩
    rintro ⟨x, hx, hs, -⟩
    exact twoLogs_not_stale hx hs

theorem twoLogs_tangled : ¬ Untangled ztch twoLogs quietly none := by
  intro h
  have hlogLog : EntryName (os "a.log.log".toList) := ⟨by decide, by decide, by decide, by decide⟩
  have hlog : EntryName (os "a.log".toList) := ⟨by decide, by decide, by decide, by decide⟩
  have hneedy : (logRule quietly).needy (os "a.log.log".toList) := ⟨by decide, by decide⟩
  have hstray : (logRule quietly).Stray (leftNames ztch twoLogs quietly none) (os "a.log".toList) := by
    refine ⟨⟨by decide, by decide⟩, ?_⟩
    rw [twoLogs_left]
    decide
  exact h.keeper _ ⟨hlogLog, twoLogs_left.2 (.inl rfl)⟩ _ ⟨hlog, twoLogs_left.2 (.inr rfl)⟩ hneedy hstray (by decide)

/-- When `rm -a` comes to `a.log` first it removes both logs; when it comes to `a.log.log` first, only the other. -/
theorem rmAll_leaves_log_of_log : ¬ ∀ (strerror : Errno → Str) (p : Program) (fs : Fs) (ans : Answers)
    (named : Option RecordAns) (done : RecordAns), Plain p.dir fs → (entries p.dir fs).Finite →
    Clean strerror p fs ans named done := by
  intro h
  have hfin : (entries ztch.dir twoLogs).Finite :=
    ((Set.finite_singleton (os "a.log".toList)).insert (os "a.log.log".toList)).subset (fun e he => mem_twoLogs_iff.1 he.2)
  have hclean := h (fun _ => []) ztch twoLogs quietly none noRecord twoLogs_plain hfin
  exact twoLogs_tangled (untangled_of_same twoLogs_plain hfin hclean.same)

end Zatch
