import Zatch.Afterwards
import Zatch.Commands
/-!
# Removing — `rm` of a session, whatever has become of it (`rm_single`)

`rm` removes what a session leaves, and refuses one that is running: the socket and the log of a daemon that died, the log of
one that ended.  Then there is nothing left to attach to (`rm_closes`).
-/
namespace Zatch

open Machine (run)

section
variable {fs : Fs} {sess : Session} {sock log : Nat} {content : List Byte}

theorem record_look_of_ne {path : Str} {p : OsStr} (hlink : ∀ target, fs.look path ≠ some (.link target)) (hp : p ≠ path)
    (n : Note) : (record path fs n).look p = fs.look p := by
  rw [record_look path hlink]
  exact if_neg (fun h => hp h.2.2)

/-- The log's name is one of a file that may be removed, if its directory lets it go. -/
theorem HasFiles.log_removable (h : HasFiles fs sess.sockname sock log content)
    (hfrozen : fs.frozen (logPath sess.sockname) = false) : fs.Removable (logPath sess.sockname) := by
  have hreg : (fs.node log).isDirectory = false := by rw [h.holds]; rfl
  obtain ⟨k, hk, hdir⟩ := FileSystem.Fs.dir_of_inode h.opens hreg
  exact ⟨k, hk, hdir, hfrozen⟩

theorem leaves_frozen (f : Fate) : (f.leaves fs sess.sockname sock).frozen = fs.frozen := by
  cases f <;> rfl

theorem removeFileIfExists_removable (strerror : Errno → Str) (appLog : Str) {path : OsStr} (h : fs.Removable path)
    (a : RecordAns) : removeFileIfExists strerror appLog fs path a = fs.drop path := by
  rw [removeFileIfExists, FileSystem.Fs.unlink_of_removable h]

/-- What `rm` leaves of the files of a session. -/
def Fate.cleared (fs : Fs) (sockname : Str) (sock : Nat) (f : Fate) : Fs :=
  match f with
  | .there => fs
  | .died => ((fs.setNode sock (.socket false)).drop sockname).drop (logPath sockname)
  | .ended => (fs.drop sockname).drop (logPath sockname)

theorem cleared_look (f : Fate) (p : OsStr) :
    (f.cleared fs sess.sockname sock).look p =
      if f ≠ .there ∧ (p = sess.sockname ∨ p = logPath sess.sockname) then none
      else (f.leaves fs sess.sockname sock).look p := by
  cases f with
  | there => rw [if_neg (fun h => h.1 rfl)]; rfl
  | died =>
    show (((fs.setNode sock (.socket false)).drop sess.sockname).drop (logPath sess.sockname)).look p =
      if _ then none else (fs.setNode sock (.socket false)).look p
    rw [FileSystem.Fs.drop_look, FileSystem.Fs.drop_look]
    by_cases hlog : p = logPath sess.sockname <;> by_cases hsock : p = sess.sockname <;> simp [hlog, hsock]
  | ended =>
    show ((fs.drop sess.sockname).drop (logPath sess.sockname)).look p = if _ then none else (fs.drop sess.sockname).look p
    rw [FileSystem.Fs.drop_look, FileSystem.Fs.drop_look]
    by_cases hlog : p = logPath sess.sockname <;> by_cases hsock : p = sess.sockname <;> simp [hlog, hsock]

theorem setNode_removable {p : OsStr} (h : fs.Removable p) (sock : Nat) (listening : Bool) :
    (fs.setNode sock (.socket listening)).Removable p := by
  obtain ⟨k, hk, hdir, hfrozen⟩ := h
  refine ⟨k, hk, ?_, hfrozen⟩
  by_cases hks : k = sock
  · rw [hks, FileSystem.Fs.setNode_node_self]
    rfl
  · rw [FileSystem.Fs.setNode_node_of_ne fs _ hks]
    exact hdir

theorem drop_removable {p q : OsStr} (h : fs.Removable p) (hne : p ≠ q) : (fs.drop q).Removable p := by
  obtain ⟨k, hk, hdir, hfrozen⟩ := h
  exact ⟨k, (if_neg hne).trans hk, hdir, hfrozen⟩

/-- **What `rm` does** to a session is what is left to do; it refuses one that is there. -/
theorem rmSingle_leaves (strerror : Errno → Str) (h : HasFiles fs sess.sockname sock log content)
    (hfrozen : fs.frozen (logPath sess.sockname) = false) {a : RmAns} (hprobe : a.probe = none) (f : Fate) :
    (rmSingle strerror (f.leaves fs sess.sockname sock) sess a).2 = (if f = .there then 1 else 0) ∧
      ∃ n, actsOn strerror sess.appLog (f.leaves fs sess.sockname sock)
        (rmSingle strerror (f.leaves fs sess.sockname sock) sess a).1 =
          record sess.appLog (f.cleared fs sess.sockname sock) n := by
  let removed : Note :=
    { a.done with level := .info, message := "session '".toList ++ sess.shortname ++ "' removed".toList }
  have hlog := h.log_removable hfrozen
  have hsock : fs.Removable sess.sockname := ⟨sock, h.socket, by rw [h.listens]; rfl, h.removable⟩
  cases f with
  | there =>
    simp only [Fate.leaves, rmSingle, hprobe, h.connect]
    exact ⟨rfl, _, rfl⟩
  | died =>
    have hsock' := setNode_removable hsock sock false
    have hlog' := drop_removable (setNode_removable hlog sock false) (logPath_ne sess.sockname)
    simp only [Fate.leaves, rmSingle, hprobe, h.connect_dead, if_true]
    refine ⟨rfl, removed, ?_⟩
    rw [actsOn, Machine.run_cons, Machine.run_cons, Machine.run_singleton]
    simp only [Act.step, Act.note, Life.step, removeFileIfExists_removable strerror _ hsock',
      removeFileIfExists_removable strerror _ hlog']
    rfl
  | ended =>
    have hlog' := drop_removable hlog (logPath_ne sess.sockname)
    have hgone : Errno.enoent ≠ Errno.econnrefused := by decide
    simp only [Fate.leaves, rmSingle, hprobe, h.connect_gone, if_neg hgone, if_true, FileSystem.Fs.unlink_of_removable hlog']
    refine ⟨rfl, removed, ?_⟩
    rw [actsOn, Machine.run_cons, Machine.run_singleton]
    simp only [Act.step, Act.note, Life.step, FileSystem.Fs.unlink_of_removable hlog']
    rfl

end

/-- **What `rm` comes to**, in every life of a session's daemon, wherever between two of its effects the daemon may have died:
it refuses a session whose daemon is there and removes nothing; of one that has ended or died it removes the socket and the
log, and nothing else, and there is nothing to attach to after it. -/
theorem rm_closes (strerror : Errno → Str) (l : RawFd) (p : Pty) (log : Option SessionLog) (sockname progname : String)
    (ks : List SessionDaemon.TurnAns) {fx : List Effect} (died : Bool)
    (hfx : fx <+: (run Living.step ⟨SessionDaemon.new l p log sockname progname, .again⟩ ks).2) {sess : Session}
    (hsess : sess.sockname = sockname.toList) {fs : Fs} {sock file : Nat} {old : List Byte}
    (hfs : HasFiles fs sess.sockname sock file old)
    (hfrozen : (filesNow file fs sess.sockname fx died).frozen (logPath sess.sockname) = false)
    (hlink : ∀ target, (filesNow file fs sess.sockname fx died).look sess.appLog ≠ some (.link target))
    (hsock : sess.appLog ≠ sess.sockname) (hlog : sess.appLog ≠ logPath sess.sockname) {a : RmAns} (hprobe : a.probe = none)
    (env : Option Str) (henv : refusesSelf env sess.sockname = false) (quiet : Bool) {b : TryAns} (hb : b.Plain) :
    let r := run Living.step ⟨SessionDaemon.new l p log sockname progname, .again⟩ ks
    let files := filesNow file fs sess.sockname fx died
    let o := rmSingle strerror files sess a
    let after := actsOn strerror sess.appLog files o.1
    (fate fx died = .ended ↔ fx = r.2 ∧ ∃ n, r.1.next = .exited n) ∧
      (fate fx died = .there → o.2 = 1 ∧ ∀ q, q ≠ os sess.appLog → after.look q = files.look q) ∧
      (fate fx died ≠ .there → o.2 = 0 ∧
        (∀ q, q ≠ os sess.appLog →
          after.look q = if q = sess.sockname ∨ q = logPath sess.sockname then none else files.look q) ∧
        tryConnect strerror false env after sess quiet b =
          (.error .enoent, sess.status .error (connectMessage strerror sess .enoent))) := by
  intro r files o after
  have hends : Ends sockname r.1 r.2 := ends_run l p log sockname progname ks
  obtain ⟨fs', hhas, hfiles⟩ := hfs.now hsess (hends.removed_last hfx) died
  rw [hfiles, leaves_frozen] at hfrozen
  rw [hfiles] at hlink
  obtain ⟨hcode, n, hacts⟩ := rmSingle_leaves strerror hhas hfrozen hprobe (fate fx died)
  have happ : ¬ (os sess.appLog = os sess.sockname ∨ os sess.appLog = os (logPath sess.sockname)) := by
    rintro (h | h)
    · exact hsock (os_injective h)
    · exact hlog (os_injective h)
  have hlink' : ∀ target, ((fate fx died).cleared fs' sess.sockname sock).look sess.appLog ≠ some (.link target) := by
    intro target
    rw [cleared_look, if_neg (fun h => happ h.2)]
    exact hlink target
  have hafter : after = record sess.appLog ((fate fx died).cleared fs' sess.sockname sock) n := by
    rw [← hacts, ← hfiles]
  have hlook : ∀ q, q ≠ os sess.appLog → after.look q =
      if fate fx died ≠ .there ∧ (q = sess.sockname ∨ q = logPath sess.sockname) then none else files.look q := by
    intro q hq
    rw [hafter, record_look_of_ne hlink' hq, cleared_look, ← hfiles]
  have hret : o.2 = if fate fx died = .there then 1 else 0 := by
    rw [← hcode, ← hfiles]
  refine ⟨hends.fate_iff hfx died, fun hthere => ⟨by rw [hret, if_pos hthere], fun q hq => ?_⟩,
    fun hgone => ⟨by rw [hret, if_neg hgone], fun q hq => ?_, ?_⟩⟩
  · rw [hlook q hq, if_neg (fun h => h.1 hthere)]
  · rw [hlook q hq]
    simp only [hgone, ne_eq, not_false_eq_true, true_and]
  · have hnosock : after.look sess.sockname = none := by
      rw [hlook _ (fun h => hsock (os_injective h).symm), if_pos ⟨hgone, .inl rfl⟩]
    have hnolog : after.look (logPath sess.sockname) = none := by
      rw [hlook _ (fun h => hlog (os_injective h).symm), if_pos ⟨hgone, .inr rfl⟩]
    exact tryConnect_nothing strerror hhas.fits hhas.nonempty hnosock hnolog henv quiet hb

/-- A session that has ended, and its `rm`. -/
theorem rm_closes_short :
    let r := run Living.step ⟨shortDaemon, .again⟩ threeAndEnd
    let sess := shortSession "s".toList (by decide)
    let files := filesNow 1 (shortFiles "s".toList) "s".toList r.2 false
    let a : RecordAns := ⟨0, true, 100, false, 0⟩
    let o := rmSingle (fun _ => []) files sess ⟨none, a, a, a⟩
    o.2 = 0 ∧ (actsOn (fun _ => []) sess.appLog files o.1).look (logPath "s".toList) = none := by
  intro r sess files a o
  have hfrozen : files.frozen (logPath "s".toList) = false := by decide +kernel
  have hnone : files.look sess.appLog = none := by decide +kernel
  have hlink : ∀ target, files.look sess.appLog ≠ some (.link target) := by
    intro target h
    rw [hnone] at h
    cases h
  have hplain : TryAns.Plain ⟨none, none, fun off => .ok off, []⟩ := ⟨rfl, rfl, fun off => ⟨off, rfl⟩⟩
  have h := rm_closes (fun _ => []) 3 ⟨4, 9⟩ (some ⟨2, 64⟩) "s" "z" threeAndEnd false (List.prefix_refl r.2)
    (rfl : sess.sockname = "s".toList) (shortFiles_has (by decide) (by decide)) hfrozen hlink (by decide) (by decide)
    (rfl : RmAns.probe ⟨none, a, a, a⟩ = none) none rfl false hplain
  obtain ⟨hended, -, hgone⟩ := h
  have hf : fate r.2 false = .ended := hended.2 ⟨rfl, 7, by decide +kernel⟩
  obtain ⟨hcode, hlook, -⟩ := hgone (by rw [hf]; decide)
  exact ⟨hcode, (hlook (logPath "s".toList) (by decide)).trans (if_pos (.inr rfl))⟩

end Zatch
