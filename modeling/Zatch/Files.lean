import Mathlib.Algebra.Order.Ring.Nat
import Zatch.Lib.FileSystem
import Zatch.Names
import Zatch.Sys
/-!
# Files — the socket file at a path (`sock.rs`, `connect_socket`)

A name of the file system is an OS string: characters, and the runs of bytes that are none, as `to_string_lossy` takes it
apart.  On a file that is no socket with a listener `connect(2)` fails with `ECONNREFUSED`, a socket or not:
`connect_socket` looks again at the file and tells `ENOTSOCK` apart, `listen_unix` does not and removes it
(`listens_safely_iff`).
-/
namespace Zatch

/-- A character of an OS string, or a longest run of bytes that is no character's. -/
inductive OsChar
  | chr (c : Char)
  | bad (bytes : List Byte)
deriving DecidableEq, Repr

abbrev OsStr := List OsChar

@[coe] def os (s : Str) : OsStr := s.map .chr

instance : Coe Str OsStr := ⟨os⟩

theorem os_injective : Function.Injective os :=
  List.map_injective_iff.2 (fun _ _ h => OsChar.chr.inj h)

theorem os_append (s t : Str) : os (s ++ t) = os s ++ os t := List.map_append

def OsChar.byteLen : OsChar → Nat
  | .chr c => c.utf8Size
  | .bad bytes => bytes.length

def byteLen (s : OsStr) : Nat := (s.map OsChar.byteLen).sum

namespace Errno

abbrev enoent : Errno := .other 2
abbrev eio : Errno := .other 5
abbrev enxio : Errno := .other 6
abbrev eacces : Errno := .other 13
abbrev eisdir : Errno := .other 21
abbrev einval : Errno := .other 22
abbrev eloop : Errno := .other 40
abbrev enotsock : Errno := .other 88
abbrev eaddrinuse : Errno := .other 98
abbrev econnrefused : Errno := .other 111

/-- The errors that are the file's own. -/
def ofFile : FileSystem.Error → Errno
  | .noEntry => .enoent
  | .loop => .eloop
  | .isDirectory => .eisdir
  | .notPermitted => .eacces
  | .isSocket => .enxio
  | .inUse => .eaddrinuse

theorem ofFile_ne_refused (e : FileSystem.Error) : ofFile e ≠ .econnrefused := by
  cases e <;> decide

end Errno

abbrev Fs := FileSystem.Fs OsStr Byte

/-- A `sockaddr_un` has room for the path and the NUL after it. -/
def sunPathMax : Nat := 108

/-- The path can be put in a `sockaddr_un`; with one that cannot the standard library makes no system call. -/
def Fits (path : OsStr) : Prop := .chr '\x00' ∉ path ∧ byteLen path < sunPathMax

instance (path : OsStr) : Decidable (Fits path) := inferInstanceAs (Decidable (_ ∧ _))

/-- An error of `connect(2)` that is not the file's doing: a full table, a permission, an interrupt. -/
abbrev Trouble := { e : Errno // e ≠ .econnrefused }

/-- `UnixStream::connect`; the error has no number when no system call was made. -/
def streamConnect (fs : Fs) (trouble : Option Trouble) (path : OsStr) : Except (Option Errno) Unit :=
  match trouble with
  | some e => .error (some e.1)
  | none =>
    if ¬ Fits path then .error none
    else if path = [] then .error (some .einval)
    else
      match fs.stat path with
      | .ok (.socket true) => .ok ()
      | .ok _ => .error (some .econnrefused)
      | .error e => .error (some (.ofFile e))

/-- The `bind(2)` of `UnixListener::bind`; to the empty path the kernel binds a name that is no file's. -/
def listenerBind (fs : Fs) (refused : Option Errno) (path : OsStr) : Except (Option Errno) Fs :=
  match refused with
  | some e => .error (some e)
  | none =>
    if ¬ Fits path then .error none
    else if path = [] then .ok fs
    else (fs.bind path).mapError (fun e => some (.ofFile e))

/-- The socket that is bound at the path gets a listener, or loses it. -/
def listenAt (fs : Fs) (path : OsStr) (listening : Bool) : Fs :=
  match fs.dir path with
  | some i => fs.setNode i (.socket listening)
  | none => fs

/-- `sock::connect_unix`. -/
def connectUnix (fs : Fs) (trouble : Option Trouble) (path : Str) : Except Errno Unit :=
  (streamConnect fs trouble path).mapError (·.getD .eio)

def connectSocket (fs : Fs) (trouble : Option Trouble) (name : Str) : Except Errno Unit :=
  match connectUnix fs trouble name with
  | .ok stream => .ok stream
  | .error e =>
    if e = .econnrefused then
      match fs.stat name with
      | .ok kind => if kind.isSocket then .error .econnrefused else .error .enotsock
      | .error _ => .error .econnrefused
    else .error e

/-- What the system calls of `listen_unix` answer, besides what the file system says. -/
structure ListenAns where
  probe : Option Trouble
  bind : Option Errno
  listen : Option Errno
  nonblocking : Option Errno
  chmod : Option Errno
deriving DecidableEq

/-- The error, if there is one, after `bind(2)` has made the socket. -/
def ListenAns.setup (a : ListenAns) (path : Str) : Option Errno :=
  a.listen <|> a.nonblocking <|> if path = [] then some .enoent else a.chmod

/-- `listen_unix` from its `bind` on.  Until it is returned the listener is no one's: an error drops it and leaves the
socket file behind. -/
def bindAt (fs : Fs) (a : ListenAns) (path : Str) : Fs × Except Errno Unit :=
  match listenerBind fs a.bind path with
  | .error e => (fs, .error (e.getD .eio))
  | .ok bound =>
    match a.setup path with
    | some e => (bound, .error e)
    | none => (listenAt bound path true, .ok ())

def listenUnix (fs : Fs) (a : ListenAns) (path : Str) : Fs × Except Errno Unit :=
  match streamConnect fs a.probe path with
  | .ok _ => (fs, .error .eaddrinuse)
  | .error e => bindAt (if e = some .econnrefused then (fs.unlink path).1 else fs) a path

/-- The path is a file that is no socket, and that `connect(2)` comes to: it refuses. -/
def RefusedFile (fs : Fs) (probe : Option Trouble) (path : Str) : Prop :=
  probe = none ∧ Fits path ∧ path ≠ [] ∧ ∃ kind, fs.stat path = .ok kind ∧ kind.isSocket = false

/-- The path's file is not what it was. -/
def Unlinked (before after : Fs) (path : Str) : Prop := ∃ i, before.dir path = some i ∧ after.dir path ≠ some i

/-- What `listen_unix` may do to a file that is at its path. -/
structure ListensSafely (fs : Fs) (a : ListenAns) (path : Str) : Prop where
  unlinks : Unlinked fs (listenUnix fs a path).1 path ↔
    connectSocket fs a.probe path = .error .econnrefused ∧ fs.Removable path
  stale : Unlinked fs (listenUnix fs a path).1 path → fs.stat path = .ok (.socket false)
  keeps : fs.dir path ≠ none → fs.stat path ≠ .ok (.socket false) →
    (∃ e, (listenUnix fs a path).2 = .error e) ∧ (listenUnix fs a path).1 = fs

theorem os_eq_nil {s : Str} : os s = [] ↔ s = [] := List.map_eq_nil_iff

theorem connect_refused_iff {fs : Fs} {trouble : Option Trouble} {path : Str} :
    streamConnect fs trouble path = .error (some .econnrefused) ↔
      trouble = none ∧ Fits path ∧ path ≠ [] ∧ ∃ kind, fs.stat path = .ok kind ∧ kind ≠ .socket true := by
  cases trouble with
  | some e =>
    have he : ¬ e.1 = Errno.econnrefused := e.2
    simp [streamConnect, he]
  | none =>
    by_cases hfits : Fits path
    · rw [streamConnect, if_neg (not_not_intro hfits)]
      by_cases hnil : path = []
      · rw [if_pos (os_eq_nil.2 hnil)]
        simp [hnil]
      · rw [if_neg (fun h => hnil (os_eq_nil.1 h))]
        simp only [hfits, hnil, true_and, ne_eq, not_false_eq_true]
        split
        · simp [*]
        · rename_i kind hlive hstat
          simp only [hstat, Except.ok.injEq, exists_eq_left', true_iff]
          exact hlive
        · rename_i e hstat
          have he := Errno.ofFile_ne_refused e
          simp [hstat, he]
    · simp [streamConnect, hfits]

theorem connectUnix_eq_refused_iff {fs : Fs} {trouble : Option Trouble} {path : Str} :
    connectUnix fs trouble path = .error .econnrefused ↔
      streamConnect fs trouble path = .error (some .econnrefused) := by
  rw [connectUnix]
  rcases streamConnect fs trouble path with (_ | e) | _
  · simp [Except.mapError]
  · simp [Except.mapError]
  · simp [Except.mapError]

theorem connectSocket_refused_iff {fs : Fs} {trouble : Option Trouble} {path : Str} :
    connectSocket fs trouble path = .error .econnrefused ↔
      trouble = none ∧ Fits path ∧ path ≠ [] ∧ fs.stat path = .ok (.socket false) := by
  have hkind : ∀ kind : FileSystem.Kind OsStr Byte, kind ≠ .socket true ∧ kind.isSocket = true ↔ kind = .socket false := by
    intro kind
    rcases kind with ⟨_ | _⟩ | _ | _ | _ | _ <;> simp [FileSystem.Kind.isSocket]
  rw [connectSocket]
  by_cases hconn : connectUnix fs trouble path = .error .econnrefused
  · rw [hconn]
    obtain ⟨htrouble, hfits, hnil, kind, hstat, hlive⟩ := connect_refused_iff.1 (connectUnix_eq_refused_iff.1 hconn)
    have hsock : kind.isSocket = true ↔ kind = .socket false := by rw [← hkind kind, and_iff_right hlive]
    cases h : kind.isSocket with
    | true =>
      rw [hsock.1 h] at hstat
      simp [hstat, FileSystem.Kind.isSocket, htrouble, hfits, hnil]
    | false =>
      rw [h, Bool.false_eq_true, false_iff] at hsock
      simp [hstat, h, hsock]
  · constructor
    · intro h
      split at h
      · cases h
      · rename_i e he
        split at h
        · exact absurd (by rw [he, ‹e = _›]) hconn
        · cases h
          exact absurd rfl ‹_›
    · rintro ⟨htrouble, hfits, hnil, hstat⟩
      refine absurd (connectUnix_eq_refused_iff.2 (connect_refused_iff.2 ?_)) hconn
      exact ⟨htrouble, hfits, hnil, _, hstat, by simp⟩

/-- **What `connect(2)` refuses** is what `connect_socket` calls refused, and the files that are no sockets. -/
theorem connect_refused_iff_connectSocket {fs : Fs} {trouble : Option Trouble} {path : Str} :
    streamConnect fs trouble path = .error (some .econnrefused) ↔
      connectSocket fs trouble path = .error .econnrefused ∨ RefusedFile fs trouble path := by
  rw [connect_refused_iff, connectSocket_refused_iff, RefusedFile]
  constructor
  · rintro ⟨htrouble, hfits, hnil, kind, hstat, hlive⟩
    by_cases hkind : kind.isSocket = false
    · exact .inr ⟨htrouble, hfits, hnil, kind, hstat, hkind⟩
    · refine .inl ⟨htrouble, hfits, hnil, ?_⟩
      rcases kind with ⟨_ | _⟩ | _ | _ | _ | _ <;> simp_all [FileSystem.Kind.isSocket]
  · rintro (⟨htrouble, hfits, hnil, hstat⟩ | ⟨htrouble, hfits, hnil, kind, hstat, hkind⟩)
    · exact ⟨htrouble, hfits, hnil, _, hstat, by simp⟩
    · refine ⟨htrouble, hfits, hnil, kind, hstat, ?_⟩
      rintro rfl
      cases hkind

theorem listenerBind_ok_iff {fs bound : Fs} {refused : Option Errno} {path : Str} :
    listenerBind fs refused path = .ok bound ↔ refused = none ∧ Fits path ∧
      (path = [] ∧ bound = fs ∨ path ≠ [] ∧ fs.dir path = none ∧ bound = fs.make path (.socket false)) := by
  cases refused with
  | some e => simp [listenerBind]
  | none =>
    by_cases hfits : Fits path
    · rw [listenerBind, if_neg (not_not_intro hfits)]
      by_cases hnil : path = []
      · rw [if_pos (os_eq_nil.2 hnil), Except.ok.injEq, and_iff_right rfl, and_iff_right hfits]
        simp only [hnil, true_and, ne_eq, not_true_eq_false, false_and, or_false]
        exact eq_comm
      · rw [if_neg (fun h => hnil (os_eq_nil.1 h)), FileSystem.Fs.bind]
        simp only [hfits, hnil, true_and, ne_eq, not_false_eq_true, false_and, false_or]
        cases fs.dir path with
        | some i => simp [Except.mapError]
        | none =>
          simp only [Except.mapError, Except.ok.injEq, true_and]
          exact eq_comm
    · simp [listenerBind, hfits]

/-- A socket bound to no path fails in what comes after. -/
theorem ListenAns.setup_of_nil (a : ListenAns) {path : Str} (hnil : path = []) : ∃ e, a.setup path = some e := by
  rw [setup, if_pos hnil]
  cases a.listen <;> cases a.nonblocking <;> exact ⟨_, rfl⟩

/-- With a file in the way nothing is bound. -/
theorem bindAt_of_file {fs : Fs} {a : ListenAns} {path : Str} {i : Nat} (hp : fs.dir path = some i) :
    (bindAt fs a path).1 = fs ∧ ∃ e, (bindAt fs a path).2 = .error e := by
  unfold bindAt
  cases hbound : listenerBind fs a.bind path with
  | error e => exact ⟨rfl, _, rfl⟩
  | ok bound =>
    obtain ⟨-, -, ⟨hnil, rfl⟩ | ⟨-, hfree, -⟩⟩ := listenerBind_ok_iff.1 hbound
    · obtain ⟨e, he⟩ := a.setup_of_nil hnil
      simp only [he]
      exact ⟨trivial, _, rfl⟩
    · rw [hp] at hfree
      cases hfree

@[simp] theorem listenAt_dir (fs : Fs) (path : OsStr) (listening : Bool) :
    (listenAt fs path listening).dir = fs.dir := by
  rw [listenAt]
  split <;> rfl

@[simp] theorem listenAt_cuts (fs : Fs) (path : OsStr) (listening : Bool) :
    (listenAt fs path listening).cuts = fs.cuts := by
  rw [listenAt]
  split <;> rfl

@[simp] theorem listenAt_next (fs : Fs) (path : OsStr) (listening : Bool) :
    (listenAt fs path listening).next = fs.next := by
  rw [listenAt]
  split <;> rfl

theorem listenAt_make (fs : Fs) (path : OsStr) (was listening : Bool) :
    listenAt (fs.make path (.socket was)) path listening = fs.make path (.socket listening) := by
  rw [listenAt, FileSystem.Fs.make_dir_self]
  exact FileSystem.Fs.make_setNode fs path _ _

/-- On a free path there is afterwards a new file, or still none. -/
theorem bindAt_dir_of_free {fs : Fs} {a : ListenAns} {path : Str} (hp : fs.dir path = none) :
    (bindAt fs a path).1.dir path = none ∨ (bindAt fs a path).1.dir path = some fs.next := by
  unfold bindAt
  cases hbound : listenerBind fs a.bind path with
  | error e => exact .inl hp
  | ok bound =>
    have hdir : bound.dir path = none ∨ bound.dir path = some fs.next := by
      obtain ⟨-, -, ⟨-, rfl⟩ | ⟨-, -, rfl⟩⟩ := listenerBind_ok_iff.1 hbound
      · exact .inl hp
      · exact .inr (FileSystem.Fs.make_dir_self _ _ _)
    cases hsetup : a.setup path with
    | some e => exact hdir
    | none =>
      dsimp only
      rw [listenAt_dir]
      exact hdir

/-- What the probe of `listen_unix` leaves. -/
def cleared (fs : Fs) (probe : Option Trouble) (path : Str) : Fs :=
  if streamConnect fs probe path = .error (some .econnrefused) then (fs.unlink path).1 else fs

/-- `connect(2)` is refused at the path, and what is there can be unlinked. -/
def Clears (fs : Fs) (probe : Option Trouble) (path : Str) : Prop :=
  streamConnect fs probe path = .error (some .econnrefused) ∧ fs.Removable path

/-- `listen_unix` comes to have made a socket. -/
def Binds (fs : Fs) (a : ListenAns) (path : Str) : Prop :=
  a.bind = none ∧ Fits path ∧ (fs.dir path = none ∨ Clears fs a.probe path)

theorem listenUnix_of_error {fs : Fs} {a : ListenAns} {path : Str} {e : Option Errno}
    (he : streamConnect fs a.probe path = .error e) :
    listenUnix fs a path = bindAt (cleared fs a.probe path) a path := by
  simp only [listenUnix, cleared, he, Except.error.injEq]

theorem cleared_of_clears {fs : Fs} {probe : Option Trouble} {path : Str} (h : Clears fs probe path) :
    cleared fs probe path = fs.drop path := by
  rw [cleared, if_pos h.1, FileSystem.Fs.unlink_of_removable h.2]

theorem cleared_of_not_clears {fs : Fs} {probe : Option Trouble} {path : Str} (h : ¬ Clears fs probe path) :
    cleared fs probe path = fs := by
  rw [cleared]
  split
  · exact FileSystem.Fs.unlink_of_not_removable (fun hrem => h ⟨‹_›, hrem⟩)
  · rfl

theorem cleared_dir_eq_none_iff {fs : Fs} {probe : Option Trouble} {path : Str} :
    (cleared fs probe path).dir path = none ↔ fs.dir path = none ∨ Clears fs probe path := by
  by_cases h : Clears fs probe path
  · rw [cleared_of_clears h]
    simp [FileSystem.Fs.drop, h]
  · rw [cleared_of_not_clears h]
    simp [h]

theorem cleared_next (fs : Fs) (probe : Option Trouble) (path : Str) : (cleared fs probe path).next = fs.next := by
  by_cases h : Clears fs probe path
  · rw [cleared_of_clears h]
    rfl
  · rw [cleared_of_not_clears h]

theorem cleared_after (fs : Fs) (probe : Option Trouble) (path : Str) :
    FileSystem.Fs.After fs (cleared fs probe path) := by
  by_cases h : Clears fs probe path
  · rw [cleared_of_clears h]
    exact FileSystem.Fs.drop_after fs path
  · rw [cleared_of_not_clears h]
    exact .refl fs

/-- A path that has no file, or one that is no socket with a listener, is not connected to. -/
theorem connect_ne_ok {fs : Fs} {probe : Option Trouble} {path : Str} {stream : Unit}
    (h : fs.dir path = none ∨ Clears fs probe path) : streamConnect fs probe path ≠ .ok stream := by
  rcases h with hfree | hclears
  · intro hok
    have hstat : fs.stat path = .error .noEntry := by
      simp [FileSystem.Fs.stat, FileSystem.Fs.inode, FileSystem.Fs.resolve, hfree, Except.map]
    unfold streamConnect at hok
    rw [hstat] at hok
    split at hok
    · cases hok
    · split at hok
      · cases hok
      · split at hok <;> cases hok
  · rw [hclears.1]
    exact fun h => by cases h

/-- **`listen_unix` that makes no socket** fails, with what its probe left. -/
theorem listenUnix_of_not_binds {fs : Fs} {a : ListenAns} {path : Str} (hne : path ≠ []) (h : ¬ Binds fs a path) :
    ∃ e, listenUnix fs a path = (cleared fs a.probe path, .error e) := by
  cases hconn : streamConnect fs a.probe path with
  | ok stream =>
    refine ⟨.eaddrinuse, ?_⟩
    simp [listenUnix, cleared, hconn]
  | error e =>
    rw [listenUnix_of_error hconn]
    unfold bindAt
    cases hbound : listenerBind (cleared fs a.probe path) a.bind path with
    | error e => exact ⟨_, rfl⟩
    | ok bound =>
      obtain ⟨hbind, hfits, ⟨hnil, -⟩ | ⟨-, hfree, -⟩⟩ := listenerBind_ok_iff.1 hbound
      · exact absurd hnil hne
      · exact absurd ⟨hbind, hfits, cleared_dir_eq_none_iff.1 hfree⟩ h

/-- **`listen_unix` that makes a socket** fails or not in what it does to it afterwards. -/
theorem listenUnix_of_binds {fs : Fs} {a : ListenAns} {path : Str} (hne : path ≠ []) (h : Binds fs a path) :
    listenUnix fs a path =
      match a.setup path with
      | some e => ((cleared fs a.probe path).make path (.socket false), .error e)
      | none => ((cleared fs a.probe path).make path (.socket true), .ok ()) := by
  obtain ⟨hbind, hfits, hfree⟩ := h
  cases hconn : streamConnect fs a.probe path with
  | ok stream => exact absurd hconn (connect_ne_ok hfree)
  | error e =>
    have hbound := listenerBind_ok_iff.2 ⟨hbind, hfits, .inr ⟨hne, cleared_dir_eq_none_iff.2 hfree, rfl⟩⟩
    simp only [listenUnix_of_error hconn, bindAt, hbound, listenAt_make]

theorem listenUnix_after (fs : Fs) (a : ListenAns) (path : Str) : FileSystem.Fs.After fs (listenUnix fs a path).1 := by
  cases hconn : streamConnect fs a.probe path with
  | ok stream =>
    rw [listenUnix, hconn]
    exact .refl fs
  | error e =>
    rw [listenUnix_of_error hconn]
    refine (cleared_after fs a.probe path).trans ?_
    unfold bindAt
    cases hbound : listenerBind (cleared fs a.probe path) a.bind path with
    | error e => exact .refl _
    | ok bound =>
      obtain ⟨-, -, ⟨hnil, rfl⟩ | ⟨-, -, rfl⟩⟩ := listenerBind_ok_iff.1 hbound
      · obtain ⟨e, he⟩ := a.setup_of_nil hnil
        simp only [he]
        exact .refl _
      · cases hsetup : a.setup path with
        | some e => exact FileSystem.Fs.make_after _ _ (fun _ h => by cases h)
        | none =>
          simp only [listenAt_make]
          exact FileSystem.Fs.make_after _ _ (fun _ h => by cases h)

/-- `listen_unix` changes no name but its path, and truncates nothing. -/
theorem listenUnix_frame (fs : Fs) (a : ListenAns) (path : Str) :
    (∀ q, q ≠ os path → (listenUnix fs a path).1.dir q = fs.dir q) ∧ (listenUnix fs a path).1.cuts = fs.cuts := by
  have hcleared : (∀ q, q ≠ os path → (cleared fs a.probe path).dir q = fs.dir q) ∧
      (cleared fs a.probe path).cuts = fs.cuts := by
    by_cases h : Clears fs a.probe path
    · rw [cleared_of_clears h]
      exact ⟨fun q hq => if_neg hq, rfl⟩
    · rw [cleared_of_not_clears h]
      exact ⟨fun _ _ => rfl, rfl⟩
  cases hconn : streamConnect fs a.probe path with
  | ok stream =>
    rw [listenUnix, hconn]
    exact ⟨fun _ _ => rfl, rfl⟩
  | error e =>
    rw [listenUnix_of_error hconn]
    unfold bindAt
    cases hbound : listenerBind (cleared fs a.probe path) a.bind path with
    | error e => exact hcleared
    | ok bound =>
      have hframe : (∀ q, q ≠ os path → bound.dir q = fs.dir q) ∧ bound.cuts = fs.cuts := by
        obtain ⟨-, -, ⟨-, rfl⟩ | ⟨-, -, rfl⟩⟩ := listenerBind_ok_iff.1 hbound
        · exact hcleared
        · exact ⟨fun q hq => (if_neg hq).trans (hcleared.1 q hq), hcleared.2⟩
      cases hsetup : a.setup path with
      | some e => exact hframe
      | none =>
        simp only [listenAt_dir, listenAt_cuts]
        exact hframe

/-- With a file at the path that is not unlinked, nothing is done. -/
theorem listenUnix_of_file {fs : Fs} {a : ListenAns} {path : Str} {i : Nat} (hp : fs.dir path = some i)
    (h : ¬ Clears fs a.probe path) : (listenUnix fs a path).1 = fs ∧ ∃ e, (listenUnix fs a path).2 = .error e := by
  cases hconn : streamConnect fs a.probe path with
  | ok stream =>
    rw [listenUnix, hconn]
    exact ⟨rfl, _, rfl⟩
  | error e =>
    rw [listenUnix_of_error hconn, cleared_of_not_clears h]
    exact bindAt_of_file hp

theorem unlinked_iff {fs : Fs} {a : ListenAns} {path : Str} :
    Unlinked fs (listenUnix fs a path).1 path ↔ Clears fs a.probe path := by
  constructor
  · rintro ⟨i, hp, hgone⟩
    by_contra h
    exact hgone (by rw [(listenUnix_of_file hp h).1, hp])
  · intro h
    obtain ⟨i, hp, -⟩ := h.2
    refine ⟨i, hp, ?_⟩
    have hfree : (cleared fs a.probe path).dir path = none := cleared_dir_eq_none_iff.2 (.inr h)
    rw [listenUnix_of_error h.1]
    rcases bindAt_dir_of_free (a := a) hfree with hdir | hdir
    · rw [hdir]
      simp
    · rw [hdir, cleared_next, ne_eq, Option.some_inj]
      exact Nat.ne_of_gt (fs.dir_lt _ i hp)

/-- **`listen_unix` is safe for what is at its path** exactly when that is not a file that is no socket, which it would
refuse to be connected to and could be unlinked. -/
theorem listens_safely_iff (fs : Fs) (a : ListenAns) (path : Str) :
    ListensSafely fs a path ↔ ¬ (RefusedFile fs a.probe path ∧ fs.Removable path) := by
  constructor
  · rintro h ⟨hfile, hrem⟩
    have hconn := connect_refused_iff_connectSocket.2 (.inr hfile)
    have hstat := h.stale (unlinked_iff.2 ⟨hconn, hrem⟩)
    obtain ⟨-, -, -, kind, hkind, hsock⟩ := hfile
    rw [hstat, Except.ok.injEq] at hkind
    subst hkind
    cases hsock
  · intro h
    have hrefused : Clears fs a.probe path ↔
        connectSocket fs a.probe path = .error .econnrefused ∧ fs.Removable path := by
      rw [Clears, connect_refused_iff_connectSocket]
      constructor
      · rintro ⟨hsock | hfile, hrem⟩
        · exact ⟨hsock, hrem⟩
        · exact absurd ⟨hfile, hrem⟩ h
      · exact fun hsock => ⟨.inl hsock.1, hsock.2⟩
    have hstale : Unlinked fs (listenUnix fs a path).1 path → fs.stat path = .ok (.socket false) := by
      intro hun
      exact (connectSocket_refused_iff.1 (hrefused.1 (unlinked_iff.1 hun)).1).2.2.2
    refine ⟨unlinked_iff.trans hrefused, hstale, ?_⟩
    intro hfile hstat
    obtain ⟨i, hp⟩ := Option.ne_none_iff_exists'.1 hfile
    have hkept : ¬ Clears fs a.probe path := fun hun => hstat (hstale (unlinked_iff.2 hun))
    exact ⟨(listenUnix_of_file hp hkept).2, (listenUnix_of_file hp hkept).1⟩

/-- One file, at one name. -/
def fileAt (path : Str) (kind : FileSystem.Kind OsStr Byte) : Fs where
  dir p := if p = path then some 0 else none
  node _ := kind
  next := 1
  frozen _ := false
  cuts _ := 0
  dir_lt p i h := by
    split at h <;> cases h
    exact Nat.zero_lt_one

theorem fileAt_look (path : Str) (kind : FileSystem.Kind OsStr Byte) (p : OsStr) :
    (fileAt path kind).look p = if p = path then some kind.blank else none := by
  by_cases hp : p = path <;> simp [FileSystem.Fs.look, fileAt, hp]

/-- `ztch start ./notes` where `notes` is a text. -/
theorem listens_over_a_file : ¬ ∀ (fs : Fs) (a : ListenAns) (path : Str), ListensSafely fs a path := by
  intro h
  obtain ⟨⟨e, he⟩, -⟩ := (h (fileAt "./notes".toList (.regular [104, 105])) ⟨none, none, none, none, none⟩
    "./notes".toList).keeps (by decide) (by decide)
  cases he

end Zatch
