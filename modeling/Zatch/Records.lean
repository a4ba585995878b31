import Zatch.AppLog
import Zatch.LogSessions
/-!
# Records — the application log under one record after another (`app_log.rs`)

Each record is appended through one descriptor and the file cut back through another.  Trimmed again and again, the file is
what it would be trimmed once, at the end (`records_keep_latest`); and as no message has a line break left in it, what the
file is made of is lines (`recordLine_one_newline`).
-/
namespace Zatch

/-! ## One line -/

/-- `str::replace` of a character. -/
def replaceChar (c : Char) (new : Str) (s : Str) : Str := s.flatMap (fun d => if d = c then new else [d])

/-- The two replacements of `escape_line`, one after the other. -/
theorem escapeLine_eq (message : Str) :
    escapeLine message = replaceChar '\n' "\\n".toList (replaceChar '\r' "\\r".toList message) := by
  unfold escapeLine replaceChar
  rw [List.flatMap_assoc]
  congr 1
  funext c
  by_cases hr : c = '\r'
  · simp [hr]
  · by_cases hn : c = '\n'
    · simp [hn]
    · simp [hr, hn]

theorem not_mem_replaceChar {c d : Char} {new : Str} (hnew : d ∉ new) {s : Str} (h : d = c ∨ d ∉ s) :
    d ∉ replaceChar c new s := by
  intro hmem
  obtain ⟨e, he, hd⟩ := List.mem_flatMap.1 hmem
  split at hd
  · exact hnew hd
  · rename_i hne
    rw [List.mem_singleton] at hd
    rcases h with rfl | hs
    · exact hne hd.symm
    · exact hs (hd ▸ he)

theorem not_mem_escapeLine (message : Str) : '\n' ∉ escapeLine message ∧ '\r' ∉ escapeLine message := by
  rw [escapeLine_eq]
  constructor
  · exact not_mem_replaceChar (by decide) (.inl rfl)
  · exact not_mem_replaceChar (by decide) (.inr (not_mem_replaceChar (by decide) (.inl rfl)))

theorem not_mem_toString {c : Char} (hc : c.isDigit = false) (n : Nat) : c ∉ (toString n).toList := by
  intro h
  have hdigit : c.isDigit = true := Nat.isDigit_of_mem_toDigits (b := 10) (by decide) (by decide) (by simpa using h)
  rw [hc] at hdigit
  cases hdigit

/-- **A record is one line**: its only newline is its last byte, and it has no carriage return. -/
theorem recordLine_one_newline (now : Nat) (level : LogLevel) (message : Str) :
    ∃ body, recordLine now level message = body ++ [10] ∧ 10 ∉ body ∧ 13 ∉ body := by
  obtain ⟨hn, hr⟩ := not_mem_escapeLine message
  refine ⟨utf8 ((toString now).toList ++ ' ' :: level.asStr ++ ' ' :: escapeLine message), ?_, ?_, ?_⟩
  · rw [recordLine, utf8, List.flatMap_append]
    rfl
  · have hlevel : '\n' ∉ level.asStr := by cases level <;> decide
    have htime : '\n' ∉ (toString now).toList := not_mem_toString (by decide) now
    refine not_mem_utf8 (c := '\n') ?_ (by decide) (by decide)
    simp only [List.append_assoc, List.cons_append, List.mem_append, List.mem_cons, not_or]
    exact ⟨htime, by decide, hlevel, by decide, hn⟩
  · have hlevel : '\r' ∉ level.asStr := by cases level <;> decide
    have htime : '\r' ∉ (toString now).toList := not_mem_toString (by decide) now
    refine not_mem_utf8 (c := '\r') ?_ (by decide) (by decide)
    simp only [List.append_assoc, List.cons_append, List.mem_append, List.mem_cons, not_or]
    exact ⟨htime, by decide, hlevel, by decide, hr⟩

/-! ## The file -/

def Note.line (n : Note) : List Byte := recordLine n.now n.level n.message

/-- Every file operation of the record succeeds, and the read gets all that is there. -/
structure Note.Succeeds (n : Note) : Prop where
  opens : n.opens = true
  wrote : n.line.length ≤ n.wrote
  reopens : n.reopens = true
  got : appLogMaxSize ≤ n.got

/-- The log's name leads to this file, with this in it. -/
def LogAt (path : Str) (fs : Fs) (i : Nat) (content : List Byte) : Prop :=
  fs.inode path = .ok i ∧ fs.node i = .regular content

theorem record_eq {path : Str} {fs fs' : Fs} {i : Nat} (hopen : fs.openFile true path = .ok (fs', i)) {n : Note}
    (hn : n.opens = true) : record path fs n = n.writeTo fs' i := by
  rw [record, if_pos hn, hopen]

/-- **One record** adds its line to the file and cuts it back to its latest bytes. -/
theorem writeTo_logAt {path : Str} {fs : Fs} {i : Nat} {content : List Byte} (h : LogAt path fs i content) {n : Note}
    (hn : n.Succeeds) : LogAt path (n.writeTo fs i) i ((content ++ n.line).rtake appLogMaxSize) := by
  have hline : n.written = n.line := List.take_of_length_le hn.wrote
  have hcut : rotateFile appLogMaxSize n.got (content ++ n.line) = (content ++ n.line).rtake appLogMaxSize := by
    have hmax : 0 < appLogMaxSize := by decide
    rw [rotateFile, if_neg (Nat.ne_of_gt hmax), rotate_eq_rtake hmax hn.got]
  have hgrown : (fs.setNode i (.regular (content ++ n.line))).node i = .regular (content ++ n.line) :=
    FileSystem.Fs.setNode_node_self fs i _
  obtain ⟨hnode, hinode⟩ := FileSystem.Fs.prune_node hgrown (rotateFile appLogMaxSize n.got) path
  rw [Note.writeTo, if_pos hn.reopens, FileSystem.Fs.rewrite_eq h.2, hline]
  refine ⟨?_, ?_⟩
  · rw [hinode, FileSystem.Fs.setNode_inode h.2]
    exact h.1
  · rw [hnode, hcut]

theorem records_logAt {path : Str} {i : Nat} : ∀ (ns : List Note) {fs : Fs} {content : List Byte},
    LogAt path fs i (content.rtake appLogMaxSize) → (∀ n ∈ ns, n.Succeeds) →
      LogAt path (ns.foldl (record path) fs) i ((content ++ ns.flatMap Note.line).rtake appLogMaxSize)
  | [], fs, content, h, _ => by rwa [List.flatMap_nil, List.append_nil]
  | n :: ns, fs, content, h, hs => by
    have hn := hs n List.mem_cons_self
    have hstep := writeTo_logAt h hn
    rw [Cyclic.rtake_rtake_append] at hstep
    rw [List.foldl_cons, record_eq (FileSystem.Fs.openFile_of_regular h.1 h.2) hn.opens, List.flatMap_cons,
      ← List.append_assoc]
    exact records_logAt ns hstep (fun n' hn' => hs n' (List.mem_cons_of_mem _ hn'))

/-- **The application log after each record**, from any file it is opened on, or newly made: the latest bytes of what was
there and of all the lines recorded, no more than the cap, and every line ends with its only newline. -/
theorem records_keep_latest {path : Str} {fs fs' : Fs} {i : Nat} {content : List Byte}
    (hopen : fs.openFile true path = .ok (fs', i)) (hcontent : fs'.node i = .regular content) (ns : List Note)
    (hs : ∀ n ∈ ns, n.Succeeds) :
    (∀ pre n post, ns = pre ++ n :: post →
      ∃ log lost, ((pre ++ [n]).foldl (record path) fs).stat path = .ok (.regular log) ∧
        log = (content ++ (pre ++ [n]).flatMap Note.line).rtake appLogMaxSize ∧ log.length ≤ appLogMaxSize ∧
        lost ++ log = content ++ (pre ++ [n]).flatMap Note.line) ∧
    ∀ n ∈ ns, ∃ body, n.line = body ++ [10] ∧ 10 ∉ body ∧ 13 ∉ body := by
  refine ⟨fun pre n post hns => ?_, fun n _ => recordLine_one_newline n.now n.level n.message⟩
  have hs' : ∀ m ∈ pre ++ [n], m.Succeeds := by
    intro m hm
    apply hs m
    rw [hns]
    exact (List.mem_append.1 hm).elim (List.mem_append_left _) (fun h =>
      List.mem_append_right _ (List.mem_singleton.1 h ▸ List.mem_cons_self))
  have hlog : ∀ ms : List Note, ms ≠ [] → (∀ m ∈ ms, m.Succeeds) →
      LogAt path (ms.foldl (record path) fs) i ((content ++ ms.flatMap Note.line).rtake appLogMaxSize) := by
    intro ms hne hms
    obtain ⟨m, ms, rfl⟩ := List.exists_cons_of_ne_nil hne
    have hm := hms m List.mem_cons_self
    have hfirst := writeTo_logAt ⟨FileSystem.Fs.inode_of_openFile hopen, hcontent⟩ hm
    rw [List.foldl_cons, record_eq hopen hm.opens, List.flatMap_cons, ← List.append_assoc]
    exact records_logAt ms hfirst (fun m' hm' => hms m' (List.mem_cons_of_mem _ hm'))
  obtain ⟨hinode, hnode⟩ := hlog (pre ++ [n]) (by simp) hs'
  refine ⟨_, _, ?_, rfl, ?_, List.take_append_drop _ _⟩
  · rw [FileSystem.Fs.stat, hinode]
    exact congrArg Except.ok hnode
  · rw [Cyclic.length_rtake]
    exact Nat.min_le_right _ _

/-- Two messages, one of them of two lines. -/
def firstNote : Note := ⟨⟨7, true, 100, true, appLogMaxSize⟩, .info, "a\nb".toList⟩

def secondNote : Note := ⟨⟨8, true, 100, true, appLogMaxSize⟩, .warn, "c".toList⟩

/-- A log that is at its cap already. -/
def fullLog : List Byte := List.replicate appLogMaxSize 46

theorem notes_succeed : ∀ n ∈ [firstNote, secondNote], n.Succeeds := by
  intro n hn
  rcases List.mem_pair.1 hn with rfl | rfl
  · exact ⟨rfl, by decide, rfl, Nat.le_refl _⟩
  · exact ⟨rfl, by decide, rfl, Nat.le_refl _⟩

/-- Each record drops as much of the full log as it adds. -/
theorem records_keep_latest_first :
    ∃ log lost, (([firstNote] ++ [secondNote]).foldl (record "log".toList) (fileAt "log".toList (.regular fullLog))).stat
        "log".toList = .ok (.regular log) ∧
      lost ++ log = fullLog ++ (firstNote.line ++ secondNote.line) ∧ log.length = appLogMaxSize ∧
      lost.length = (firstNote.line ++ secondNote.line).length := by
  have hopen : (fileAt "log".toList (.regular fullLog)).openFile true "log".toList =
      .ok (fileAt "log".toList (.regular fullLog), 0) := rfl
  obtain ⟨log, lost, hstat, hlog, -, hall⟩ :=
    (records_keep_latest hopen rfl [firstNote, secondNote] notes_succeed).1 [firstNote] secondNote [] rfl
  have hlines : ([firstNote] ++ [secondNote]).flatMap Note.line = firstNote.line ++ secondNote.line := by simp
  rw [hlines] at hlog hall
  have hfull : fullLog.length = appLogMaxSize := List.length_replicate
  have hlength : log.length = appLogMaxSize := by
    rw [hlog, Cyclic.length_rtake, List.length_append, hfull]
    omega
  refine ⟨log, lost, hstat, hall, hlength, ?_⟩
  have hsum := congrArg List.length hall
  rw [List.length_append, List.length_append, hfull, hlength] at hsum
  omega

end Zatch
