import Zatch.Files
import Zatch.LogFile
/-!
# AppLog — the application log (`app_log.rs`)

Every command records what it says in one file of the session directory, and cuts that file back when it has grown past
256 KiB.
-/
namespace Zatch

def appLogFileName : Str := ".ztch-app.log".toList

def appLogMaxSize : Nat := 256 * 1024

inductive LogLevel
  | info
  | warn
  | error
deriving DecidableEq, Repr

def LogLevel.asStr : LogLevel → Str
  | .info => "INFO".toList
  | .warn => "WARN".toList
  | .error => "ERROR".toList

def escapeLine (message : Str) : Str :=
  message.flatMap (fun c => if c = '\r' then ['\\', 'r'] else if c = '\n' then ['\\', 'n'] else [c])

def recordLine (now : Nat) (level : LogLevel) (message : Str) : List Byte :=
  utf8 ((toString now).toList ++ ' ' :: level.asStr ++ ' ' :: escapeLine message ++ ['\n'])

/-- `rotate_file`, of which the one `read` gets `got` bytes. -/
def rotateFile (maxSize got : Nat) (old : List Byte) : List Byte :=
  if maxSize = 0 then [] else rotate old maxSize got

/-- What the time is at a call of `record`, and what its system calls answer besides what the file system says. -/
structure RecordAns where
  now : Nat
  opens : Bool
  wrote : Nat
  reopens : Bool
  got : Nat
deriving DecidableEq, Repr

/-- One call of `record`. -/
structure Note extends RecordAns where
  level : LogLevel
  message : Str
deriving DecidableEq, Repr

/-- The bytes of the line that get into the file. -/
def Note.written (n : Note) : List Byte := (recordLine n.now n.level n.message).take n.wrote

/-- A record written to the file it has opened.  Nothing comes between its two opens, so they open one file. -/
def Note.writeTo (n : Note) (fs : Fs) (i : Nat) : Fs :=
  if n.reopens then (fs.rewrite i (· ++ n.written)).prune i (rotateFile appLogMaxSize n.got)
  else fs.rewrite i (· ++ n.written)

/-- `AppLog::record`. -/
def record (path : Str) (fs : Fs) (n : Note) : Fs :=
  if n.opens then
    match fs.openFile true path with
    | .error _ => fs
    | .ok (fs, i) => n.writeTo fs i
  else fs

/-- The record, written to a file of this size, cuts it back. -/
def Note.Rotates (n : Note) (size : Nat) : Prop :=
  n.reopens = true ∧ n.got ≠ 0 ∧ appLogMaxSize < size + n.written.length

theorem rotate_eq_iff (old : List Byte) (maxSize got : Nat) :
    rotate old maxSize got = old ↔ old.length ≤ maxSize ∨ maxSize = 0 ∨ got = 0 := by
  unfold rotate
  by_cases hle : old.length ≤ maxSize
  · simp [hle]
  · have hlen : (((old.drop (old.length - maxSize)).take maxSize).take got).length = min got maxSize := by
      rw [List.length_take, List.length_take, List.length_drop]
      omega
    rw [if_neg hle, or_iff_right hle]
    by_cases hbuf : ((old.drop (old.length - maxSize)).take maxSize).take got = []
    · rw [if_pos hbuf]
      rw [hbuf, List.length_nil] at hlen
      simp only [true_iff]
      omega
    · rw [if_neg hbuf]
      constructor
      · intro h
        rw [h] at hlen
        omega
      · intro h
        refine absurd (List.length_eq_zero_iff.1 ?_) hbuf
        rw [hlen]
        omega

theorem rotateFile_eq_iff (old : List Byte) (got : Nat) :
    rotateFile appLogMaxSize got old = old ↔ ¬ (got ≠ 0 ∧ appLogMaxSize < old.length) := by
  have hmax : appLogMaxSize ≠ 0 := by decide
  rw [rotateFile, if_neg hmax, rotate_eq_iff, not_and, Nat.not_lt]
  simp only [hmax, false_or]
  exact ⟨fun h hgot => h.resolve_right hgot, fun h => (Decidable.em (got = 0)).elim .inr (fun hgot => .inl (h hgot))⟩

theorem Note.writeTo_after (n : Note) (fs : Fs) (i : Nat) : FileSystem.Fs.After fs (n.writeTo fs i) := by
  have hwrite := FileSystem.Fs.rewrite_after fs i (· ++ n.written)
  rw [writeTo]
  split
  · exact hwrite.trans (FileSystem.Fs.prune_after _ _ _)
  · exact hwrite

@[simp] theorem Note.writeTo_dir (n : Note) (fs : Fs) (i : Nat) : (n.writeTo fs i).dir = fs.dir := by
  rw [writeTo]
  split <;> simp

theorem Note.writeTo_cuts_eq_iff (n : Note) (fs : Fs) (i j : Nat) :
    (n.writeTo fs i).cuts j = fs.cuts j ↔
      ¬ (i = j ∧ ∃ content, fs.node i = .regular content ∧ n.Rotates content.length) := by
  rw [writeTo]
  by_cases hre : n.reopens = true
  · rw [if_pos hre, ← FileSystem.Fs.rewrite_cuts fs i (· ++ n.written), FileSystem.Fs.prune_cuts_eq_iff]
    refine not_congr (and_congr_right (fun _ => ?_))
    constructor
    · rintro ⟨content, hnode, hrot⟩
      obtain ⟨old, hold, rfl⟩ := (FileSystem.Fs.rewrite_node_eq_iff fs i _ content).1 hnode
      rw [ne_eq, rotateFile_eq_iff, not_not, List.length_append] at hrot
      exact ⟨old, hold, hre, hrot⟩
    · rintro ⟨old, hold, -, hrot⟩
      refine ⟨old ++ n.written, (FileSystem.Fs.rewrite_node_eq_iff fs i _ _).2 ⟨old, hold, rfl⟩, ?_⟩
      rw [ne_eq, rotateFile_eq_iff, not_not, List.length_append]
      exact hrot
  · rw [if_neg hre]
    simp [Rotates, hre]

theorem record_after (path : Str) (fs : Fs) (n : Note) : FileSystem.Fs.After fs (record path fs n) := by
  unfold record
  by_cases hopens : n.opens = true
  · rw [if_pos hopens]
    cases hopen : fs.openFile true path with
    | error e => exact .refl fs
    | ok r => exact (FileSystem.Fs.openFile_after hopen).trans (n.writeTo_after _ _)
  · rw [if_neg hopens]
    exact .refl fs

/-- A name that has a file keeps it. -/
theorem record_dir {path : Str} {fs : Fs} {n : Note} {p : OsStr} {i : Nat} (hp : fs.dir p = some i) :
    (record path fs n).dir p = some i := by
  unfold record
  by_cases hopens : n.opens = true
  · rw [if_pos hopens]
    cases hopen : fs.openFile true path with
    | error e => exact hp
    | ok r =>
      dsimp only
      rw [Note.writeTo_dir]
      exact FileSystem.Fs.openFile_dir hopen hp
  · rw [if_neg hopens]
    exact hp

/-- A free name gets a file exactly when the links from the log's name end there. -/
theorem record_dir_of_free {path : Str} {fs : Fs} {n : Note} {p : OsStr} (hp : fs.dir p = none) :
    (record path fs n).dir p = none ↔
      ¬ (n.opens = true ∧ fs.resolve (FileSystem.Fs.symlinkMax + 1) path = .ok p) := by
  rw [record]
  by_cases hopens : n.opens = true
  · rw [if_pos hopens, and_iff_right hopens]
    split
    · rename_i e he
      refine ⟨fun _ hres => ?_, fun _ => hp⟩
      simp [FileSystem.Fs.openFile, hres, hp] at he
    · rename_i hopen
      rw [Note.writeTo_dir]
      exact FileSystem.Fs.openFile_dir_of_free hopen hp
  · rw [if_neg hopens]
    simp [hopens, hp]

theorem Note.writeTo_look (n : Note) (fs : Fs) (i : Nat) (p : OsStr) : (n.writeTo fs i).look p = fs.look p := by
  rw [Note.writeTo]
  split <;> simp

/-- Where the log's name is no link a record makes the file there, and leaves every other name as it was. -/
theorem record_look (path : Str) {fs : Fs} (hlink : ∀ target, fs.look path ≠ some (.link target)) (n : Note) (p : OsStr) :
    (record path fs n).look p = if n.opens = true ∧ fs.look path = none ∧ p = path then some (.regular []) else fs.look p := by
  rw [record]
  cases n.opens with
  | false => simp
  | true =>
    simp only [if_true, true_and]
    cases hopen : fs.openFile true path with
    | error err =>
      rw [if_neg]
      exact fun h => FileSystem.Fs.look_of_openFile_error hopen hlink h.1
    | ok r =>
      obtain ⟨fs', i⟩ := r
      dsimp only
      rw [Note.writeTo_look]
      exact FileSystem.Fs.openFile_look hopen hlink p

/-- **A record cuts back** the file it is written to, when that has grown too long, and no other. -/
theorem record_cuts_eq_iff {path : Str} {fs : Fs} {n : Note} {j : Nat} (hj : j < fs.next) :
    (record path fs n).cuts j = fs.cuts j ↔
      ¬ (n.opens = true ∧ fs.inode path = .ok j ∧
        ∃ content, fs.node j = .regular content ∧ n.Rotates content.length) := by
  rw [record]
  by_cases hopens : n.opens = true
  · rw [if_pos hopens, and_iff_right hopens]
    split
    · rename_i he
      exact iff_of_true rfl (FileSystem.Fs.not_regular_of_openFile he)
    · rename_i fs' i hopen
      exact FileSystem.Fs.openFile_cuts_eq_iff hopen hj (n.writeTo_cuts_eq_iff fs' i j)
  · rw [if_neg hopens]
    simp [hopens]

end Zatch
