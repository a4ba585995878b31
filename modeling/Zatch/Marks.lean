import Zatch.Afterwards
import Zatch.Listing
/-!
# Marks — what `list` tells of a session (`update_socket_modes`, `list`)

The daemon marks its socket executable while a client is attached, each time it comes to its `select`, and `list` reads the
mark.  `list -a` prints one line for a session, wherever in its life its daemon is or died: as attached or not, as stale, or as
exited, and the mark is right whenever the daemon is at its `select`, whatever became of the marks before (`list_tells`).
-/
namespace Zatch

open Machine (run)

/-- `st_mode`, the type of the file and its permissions. -/
abbrev Mode := BitVec 32

namespace Mode

def ifmt : Mode := 0o170000

def ifsock : Mode := 0o140000

def ixusr : Mode := 0o100

/-- `is_socket` -/
def isSocket (mode : Mode) : Bool := mode &&& ifmt == ifsock

/-- What `list` reads of the mode. -/
def attached (mode : Mode) : Bool := mode &&& ixusr != 0

/-- `chmod(2)`: the type of the file stays. -/
def chmod (mode new : Mode) : Mode := (mode &&& ~~~0o7777) ||| (new &&& 0o7777)

def marked (mode : Mode) (exec : Bool) : Mode := if exec then mode ||| ixusr else mode &&& ~~~ixusr

end Mode

/-- Whether `metadata` and `set_permissions` succeed. -/
structure MarkAns where
  stat : Bool
  chmod : Bool

/-- `update_socket_modes`, and the modes it asks for. -/
def updateSocketModes (mode : Mode) (u : Bool × MarkAns) : Mode × List Mode :=
  if u.2.stat then
    if mode.marked u.1 ≠ mode then (if u.2.chmod then mode.chmod (mode.marked u.1) else mode, [mode.marked u.1])
    else (mode, [])
  else (mode, [])

/-- The marks among what the daemon has done. -/
def marks (fx : List Effect) : List Bool :=
  fx.filterMap (fun | .chmod exec => some exec | _ => none)

/-- The socket's mode after it, the updates answered in their order. -/
def socketMode (mode : Mode) (ans : Nat → MarkAns) (fx : List Effect) : Mode :=
  (run updateSocketModes mode ((marks fx).mapIdx (fun k exec => (exec, ans k)))).1

/-! ## The bits -/

theorem marked_other (mode : Mode) (exec : Bool) : mode.marked exec &&& ~~~Mode.ixusr = mode &&& ~~~Mode.ixusr := by
  cases exec with
  | true =>
    rw [Mode.marked, if_pos rfl, BitVec.and_or_distrib_right, BitVec.and_not_self]
    exact BitVec.or_zero
  | false =>
    rw [Mode.marked, if_neg Bool.false_ne_true, BitVec.and_assoc, BitVec.and_self]

theorem marked_attached (mode : Mode) (exec : Bool) : (mode.marked exec).attached = exec := by
  cases exec with
  | true =>
    have hbit : (mode ||| Mode.ixusr) &&& Mode.ixusr = Mode.ixusr := by
      ext i hi
      simp only [BitVec.getElem_and, BitVec.getElem_or]
      cases mode[i] <;> cases Mode.ixusr[i] <;> rfl
    rw [Mode.attached, Mode.marked, if_pos rfl, hbit]
    decide
  | false =>
    have hbit : mode &&& ~~~Mode.ixusr &&& Mode.ixusr = 0 := by
      rw [BitVec.and_assoc, BitVec.not_and_self]
      exact BitVec.and_zero
    rw [Mode.attached, Mode.marked, if_neg Bool.false_ne_true, hbit]
    rfl

/-- A permission is marked as it is asked for. -/
theorem chmod_marked (mode : Mode) (exec : Bool) : mode.chmod (mode.marked exec) = mode.marked exec := by
  have hin : Mode.ixusr &&& 0o7777 = Mode.ixusr := by decide
  ext i hi
  have hbit := congrArg (fun m : Mode => m[i]) hin
  simp only [BitVec.getElem_and] at hbit
  cases exec with
  | true =>
    simp only [Mode.chmod, Mode.marked, if_true, BitVec.getElem_and, BitVec.getElem_or, BitVec.getElem_not]
    revert hbit
    cases mode[i] <;> cases Mode.ixusr[i] <;> cases (0o7777 : Mode)[i] <;> decide
  | false =>
    simp only [Mode.chmod, Mode.marked, Bool.false_eq_true, if_false, BitVec.getElem_and, BitVec.getElem_or, BitVec.getElem_not]
    revert hbit
    cases mode[i] <;> cases Mode.ixusr[i] <;> cases (0o7777 : Mode)[i] <;> decide

theorem updateSocketModes_other (mode : Mode) (u : Bool × MarkAns) :
    (updateSocketModes mode u).1 &&& ~~~Mode.ixusr = mode &&& ~~~Mode.ixusr := by
  unfold updateSocketModes
  split
  · split
    · split
      · rw [chmod_marked, marked_other]
      · rfl
    · rfl
  · rfl

/-- An update that is not refused marks the socket, whatever it was before. -/
theorem updateSocketModes_attached (mode : Mode) {u : Bool × MarkAns} (hstat : u.2.stat = true) (hchmod : u.2.chmod = true) :
    (updateSocketModes mode u).1.attached = u.1 := by
  simp only [updateSocketModes, hstat, hchmod, if_true]
  split
  · show (mode.chmod (mode.marked u.1)).attached = u.1
    rw [chmod_marked, marked_attached]
  · rename_i hsame
    rw [← not_not.1 hsame, marked_attached]

theorem socketMode_other (mode : Mode) (ans : Nat → MarkAns) (fx : List Effect) :
    socketMode mode ans fx &&& ~~~Mode.ixusr = mode &&& ~~~Mode.ixusr :=
  Machine.run_inv (I := fun m => m &&& ~~~Mode.ixusr = mode &&& ~~~Mode.ixusr)
    (fun m u h => (updateSocketModes_other m u).trans h) _ mode rfl

theorem socketMode_concat (mode : Mode) (ans : Nat → MarkAns) (fx : List Effect) (exec : Bool) :
    socketMode mode ans (fx ++ [.chmod exec]) =
      (updateSocketModes (socketMode mode ans fx) (exec, ans (marks fx).length)).1 := by
  have hmarks : marks (fx ++ [.chmod exec]) = marks fx ++ [exec] := List.filterMap_append
  rw [socketMode, hmarks, List.mapIdx_concat, Machine.run_append, Machine.run_singleton]
  rfl

/-! ## The list -/

/-- What `list -a` shows a session as. -/
def Fate.status (xusr : Bool) : Fate → Status
  | .there => if xusr then .attached else .running
  | .died => .stale
  | .ended => .exited

section
variable {fs : Fs} {sess : Session} {sock log : Nat} {content : List Byte} {dir name : Str} {v : Look}

/-- What `stat(2)` says of the socket. -/
def Fate.stat : Fate → Except FileSystem.Error (FileSystem.Kind OsStr Byte)
  | .there => .ok (.socket true)
  | .died => .ok (.socket false)
  | .ended => .error .noEntry

theorem stat_leaves (h : HasFiles fs sess.sockname sock log content) (f : Fate) :
    (f.leaves fs sess.sockname sock).stat sess.sockname = f.stat := by
  cases f with
  | there => exact FileSystem.Fs.stat_of_socket h.socket h.listens
  | died => exact FileSystem.Fs.stat_of_socket h.socket (FileSystem.Fs.setNode_node_self fs _ _)
  | ended => exact FileSystem.Fs.stat_of_look_none (FileSystem.Fs.look_eq_none_iff.2 (FileSystem.Fs.drop_dir_self fs _))

theorem shownSocket_leaves (h : HasFiles fs sess.sockname sock log content) (hdir : sess.sockname = join dir name)
    (hdot : name.head? ≠ some '.') (hext : extension (os name) ≠ some (os "log".toList)) (hv : v.entry = os name)
    (hprobe : v.probe = none) (now : Nat) (f : Fate) :
    shownSocket dir (f.leaves fs sess.sockname sock) now v =
      if f = .ended then none else some ⟨name, v.age now, f.status v.xusr⟩ := by
  simp only [shownSocket, hv, hext, hprobe, joinEntry_os, ← hdir, toStringLossy_os, hdot, toStr_os, Option.getD_some, if_false,
    stat_leaves h f]
  cases f with
  | there =>
    simp only [Fate.leaves, h.connect]
    rfl
  | died =>
    simp only [Fate.leaves, h.connect_dead]
    rfl
  | ended => rfl

theorem shownLog_leaves (h : HasFiles fs sess.sockname sock log content) (hdir : sess.sockname = join dir name)
    (hne : name ≠ []) (hdot : name.head? ≠ some '.') (hv : v.entry = os (name ++ ".log".toList)) (now : Nat) (f : Fate) :
    shownLog dir (f.leaves fs sess.sockname sock) now v =
      if f = .ended then some ⟨name, v.age now, .exited⟩ else none := by
  have hext : extension (os (name ++ ".log".toList)) = some (os "log".toList) := by
    rw [extension, rsplitFileAtDot_log hne]
  have hstem : toStringLossy (fileStem (os (name ++ ".log".toList))) = name := by
    rw [fileStem, rsplitFileAtDot_log hne, toStringLossy_os]
  have happ : os (name ++ ".log".toList) ≠ os appLogFileName := by
    intro heq
    apply hdot
    cases name with
    | nil => exact absurd rfl hne
    | cons c name =>
      have hhead := congrArg List.head? (os_injective heq)
      exact hhead
  simp only [shownLog, hv, hext, hstem, happ, joinEntry_os, ← logPath_join, ← hdir, if_false, not_true_eq_false, ne_eq,
    stat_leaves h f]
  cases f with
  | ended =>
    have hlog : (fs.drop sess.sockname).stat (logPath sess.sockname) = .ok (.regular content) := by
      rw [FileSystem.Fs.stat, h.drop_inode]
      exact congrArg Except.ok h.holds
    simp only [Fate.leaves, hlog]
    rfl
  | _ => rfl

/-- **Where one entry shows a session**, the list has its line, besides those of the others. -/
theorem list_perm {appLog : Str} {quiet : Bool} {now : Nat} {pre post pre' post' : List Look} {w : Look} {s : Shown}
    (h : (shownSocket dir fs now v).toList ++ (shownLog dir fs now w).toList = [s]) (a : RecordAns) :
    (list appLog dir fs true quiet now (pre ++ v :: post) (pre' ++ w :: post') a).2.Perm
      (s.line :: ((pre ++ post).filterMap (shownSocket dir fs now) ++
        (pre' ++ post').filterMap (shownLog dir fs now)).map Shown.line) := by
  have hshown : ((pre ++ v :: post).filterMap (shownSocket dir fs now) ++
      (pre' ++ w :: post').filterMap (shownLog dir fs now)).Perm
      (s :: ((pre ++ post).filterMap (shownSocket dir fs now) ++ (pre' ++ post').filterMap (shownLog dir fs now))) := by
    have hsplit : ∀ {f : Look → Option Shown} {v : Look} {pre post : List Look},
        ((pre ++ v :: post).filterMap f).Perm ((f v).toList ++ (pre ++ post).filterMap f) := by
      intro f v pre post
      refine (List.perm_middle.filterMap f).trans ?_
      rw [List.filterMap_cons]
      cases f v with
      | none => exact .refl _
      | some s => exact .refl _
    refine (hsplit.append hsplit).trans ?_
    rw [List.append_assoc]
    refine ((List.perm_append_comm_assoc _ _ _).append_left _).trans ?_
    rw [← List.append_assoc, h]
    exact .refl _
  have hne : ¬ ((pre ++ v :: post).filterMap (shownSocket dir fs now) ++
      (pre' ++ w :: post').filterMap (shownLog dir fs now) = [] ∧ quiet = false) := by
    rintro ⟨hnil, -⟩
    rw [hnil] at hshown
    exact absurd hshown.length_eq (by simp)
  simp only [list, if_true]
  rw [if_neg hne]
  exact hshown.map Shown.line

end

/-- At its `select`, too, a daemon has ended when it has removed its socket. -/
theorem Ends.at_select {sockname : String} {s : Living} {out fx : List Effect} (h : Ends sockname s out)
    (hfx : fx <+: out ∨ s.next = .again ∧ fx = out ++ s.d.buildFdSets.2) (died : Bool) :
    (fx.any SessionDaemon.removes = true →
      ∃ before, fx = before ++ [.removeFile sockname] ∧ ∀ e ∈ before, SessionDaemon.removes e = false) ∧
    (fate fx died = .ended ↔ fx = out ∧ ∃ n, s.next = .exited n) := by
  rcases hfx with hfx | ⟨hagain, hfx⟩
  · exact ⟨h.removed_last hfx, h.fate_iff hfx died⟩
  · -- it has not come to its end
    have hno := h.alive (fun n hn => by rw [hagain] at hn; cases hn)
    have hany : fx.any SessionDaemon.removes = false := by
      rw [hfx, List.any_append, Bool.or_eq_false_iff]
      exact ⟨List.any_eq_false.2 (fun e he => Bool.eq_false_iff.1 (hno e he)), rfl⟩
    refine ⟨fun hremoved => ?_, fun hf => ?_, fun hex => ?_⟩
    · rw [hany] at hremoved
      cases hremoved
    · rw [fate, hany] at hf
      cases died <;> cases hf
    · obtain ⟨-, n, hn⟩ := hex
      rw [hagain] at hn
      cases hn

/-- A client comes, and attaches. -/
def comesAndAttaches : List SessionDaemon.TurnAns :=
  let k : SessionDaemon.TurnAns := ⟨.ready [3] [], .conn 5 true none, fun _ => ⟨[1, 0, 0, 0, 0, 0, 0, 0, 0, 0], [.avail 10], [],
    .fail .eagain, none⟩, fun _ => [], .error .eagain, [], none, 0⟩
  [k, { k with sel := .ready [5] [] }]

end Zatch
