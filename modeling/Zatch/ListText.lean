import Mathlib.Data.List.DropRight
import Zatch.Info
import Zatch.Listing
/-!
# ListText — what `list` prints, read back (`list`, `format_age`)

A line of the list is a name padded with blanks, an age and a mark.  The age is read back to the second (`readAge_formatAge`),
the line to its parts (`line_injective`), and what is printed to the sessions that were shown, where no name breaks a line or
ends in a blank (`list_reads_back`).
-/
namespace Zatch

open Lines (IsLine)

/-! ## Ages -/

def unitSecs : Char → Nat
  | 'd' => 86400
  | 'h' => 3600
  | 'm' => 60
  | 's' => 1
  | _ => 0

/-- A number so far, or a unit after it. -/
def ageStep (st : Nat × Nat) (c : Char) : Nat × Nat :=
  if c.isDigit then (st.1, 10 * st.2 + (c.toNat - '0'.toNat)) else (st.1 + st.2 * unitSecs c, 0)

def readAge (s : Str) : Nat := (s.foldl ageStep (0, 0)).1

theorem foldl_ageStep_digits : ∀ {s : Str} (t a : Nat), (∀ c ∈ s, c.isDigit = true) →
    s.foldl ageStep (t, a) = (t, Nat.ofDigitChars 10 s a)
  | [], _, _, _ => rfl
  | c :: s, t, a, h => by
    have hstep : ageStep (t, a) c = (t, 10 * a + (c.toNat - '0'.toNat)) := if_pos (h c List.mem_cons_self)
    rw [List.foldl_cons, hstep, foldl_ageStep_digits t _ (fun x hx => h x (List.mem_cons_of_mem _ hx)), Nat.ofDigitChars_cons]

/-- A part of an age is read as its number of units. -/
theorem foldl_ageStep_part (n t : Nat) {unit : Char} (hunit : unit.isDigit = false) (rest : Str) :
    ((toString n).toList ++ unit :: rest).foldl ageStep (t, 0) = rest.foldl ageStep (t + n * unitSecs unit, 0) := by
  have hnumber : Nat.ofDigitChars 10 (toString n).toList 0 = n := by
    rw [toList_toString, Nat.ofDigitChars_ten_toDigits]
  have hstep : ageStep (t, n) unit = (t + n * unitSecs unit, 0) := if_neg (by rw [hunit]; exact Bool.false_ne_true)
  rw [List.foldl_append, foldl_ageStep_digits t 0 (fun c hc => isDigit_of_mem hc), hnumber, List.foldl_cons, hstep]

theorem foldl_ageStep_blank (t : Nat) (rest : Str) : (' ' :: rest).foldl ageStep (t, 0) = rest.foldl ageStep (t, 0) := by
  have hstep : ageStep (t, 0) ' ' = (t + 0 * unitSecs ' ', 0) := if_neg (by decide)
  rw [List.foldl_cons, hstep, Nat.zero_mul, Nat.add_zero]

/-- **An age is read back** to the second. -/
theorem readAge_formatAge (secs : Nat) : readAge (formatAge secs) = secs := by
  have hd := foldl_ageStep_part (secs / 86400) 0 (rfl : 'd'.isDigit = false)
  have hh := fun t => foldl_ageStep_part (secs % 86400 / 3600) t (rfl : 'h'.isDigit = false)
  have hm := fun t => foldl_ageStep_part (secs % 3600 / 60) t (rfl : 'm'.isDigit = false)
  have hs := fun t => foldl_ageStep_part (secs % 60) t (rfl : 's'.isDigit = false)
  simp only [formatAge, readAge, List.append_assoc, List.cons_append, List.nil_append]
  by_cases h1 : 0 < secs / 86400
  · simp only [if_pos h1, hd, hh, hm, hs, foldl_ageStep_blank, List.foldl_nil, unitSecs]
    omega
  · by_cases h2 : 0 < secs % 86400 / 3600
    · simp only [if_neg h1, if_pos h2, hh, hm, hs, foldl_ageStep_blank, List.foldl_nil, unitSecs]
      omega
    · by_cases h3 : 0 < secs % 3600 / 60
      · simp only [if_neg h1, if_neg h2, if_pos h3, hm, hs, foldl_ageStep_blank, List.foldl_nil, unitSecs]
        omega
      · simp only [if_neg h1, if_neg h2, if_neg h3, hs, List.foldl_nil, unitSecs]
        omega

/-- A character of an age. -/
def OfAge (c : Char) : Prop := c.isDigit = true ∨ c ∈ " dhms".toList

theorem ofAge_of_mem (secs : Nat) : ∀ c ∈ formatAge secs, OfAge c := by
  have hpart : ∀ (n : Nat) (unit : Char), unit ∈ " dhms".toList → ∀ c ∈ (toString n).toList ++ [unit], OfAge c := by
    intro n unit hunit c hc
    rcases List.mem_append.1 hc with hc | hc
    · exact .inl (isDigit_of_mem hc)
    · exact .inr (List.mem_singleton.1 hc ▸ hunit)
  have hd := hpart (secs / 86400) 'd' (by decide)
  have hh := hpart (secs % 86400 / 3600) 'h' (by decide)
  have hm := hpart (secs % 3600 / 60) 'm' (by decide)
  have hs := hpart (secs % 60) 's' (by decide)
  have hjoin : ∀ {s t : Str}, (∀ c ∈ s, OfAge c) → (∀ c ∈ t, OfAge c) → ∀ c ∈ s ++ ' ' :: t, OfAge c :=
    fun h h' => List.forall_mem_append.2 ⟨h, List.forall_mem_cons.2 ⟨.inr (by decide), h'⟩⟩
  simp only [formatAge]
  split
  · exact hjoin (hjoin (hjoin hd hh) hm) hs
  · split
    · exact hjoin (hjoin hh hm) hs
    · split
      · exact hjoin hm hs
      · exact hs

/-! ## Lines -/

/-- A name that breaks no line and does not end in a blank. -/
def PlainName (name : Str) : Prop := '\n' ∉ name ∧ name.getLast? ≠ some ' '

instance (name : Str) : Decidable (PlainName name) := inferInstanceAs (Decidable (_ ∧ _))

/-- A text that an age may be, `unknown` too: it ends before the last `e` of a line. -/
def AgeText (age : Str) : Prop := 'e' ∉ age ∧ '\n' ∉ age

theorem ageText_formatAge (secs : Nat) : AgeText (formatAge secs) := by
  refine ⟨fun h => ?_, fun h => ?_⟩
  · rcases ofAge_of_mem secs _ h with h | h <;> revert h <;> decide
  · rcases ofAge_of_mem secs _ h with h | h <;> revert h <;> decide

theorem rdropWhile_replicate (s : Str) : ∀ k : Nat,
    (s ++ List.replicate k ' ').rdropWhile (· == ' ') = s.rdropWhile (· == ' ')
  | 0 => by rw [List.replicate_zero, List.append_nil]
  | k + 1 => by
    rw [List.replicate_succ', ← List.append_assoc, List.rdropWhile_concat_pos _ _ _ rfl, rdropWhile_replicate s k]

theorem padName_inj {name name' : Str} (h : name.getLast? ≠ some ' ') (h' : name'.getLast? ≠ some ' ')
    (heq : padName name = padName name') : name = name' := by
  have hself : ∀ {name : Str}, name.getLast? ≠ some ' ' → (padName name).rdropWhile (· == ' ') = name := by
    intro name h
    rw [padName, rdropWhile_replicate]
    refine List.rdropWhile_eq_self_iff.2 (fun hne hblank => h ?_)
    rw [List.getLast?_eq_some_getLast hne, beq_iff_eq.1 hblank]
  rw [← hself h, heq, hself h']

/-- **A line is read back**: equal lines show the same name, age and status. -/
theorem Shown.line_injective {s t : Shown} (hs : s.name.getLast? ≠ some ' ') (ht : t.name.getLast? ≠ some ' ')
    (has : 'e' ∉ s.age) (hat : 'e' ∉ t.age) (h : s.line = t.line) : s = t := by
  have hstatus : s.status = t.status := by
    by_cases hrun : s.status = .running
    · by_cases hrun' : t.status = .running
      · rw [hrun, hrun']
      · exact s.tag_suffix_line hrun' (h ▸ List.suffix_append _ _)
    · exact (t.tag_suffix_line hrun (h ▸ List.suffix_append _ _)).symm
  rw [line, line, hstatus] at h
  have hbody := List.append_cancel_right (List.append_cancel_right h)
  -- read from its end, the text comes to the blank after `since` before any other `e`
  have hrev : (s.age.reverse ++ [' ', 'e']) ++ (" sinc".toList.reverse ++ (padName s.name).reverse) =
      (t.age.reverse ++ [' ', 'e']) ++ (" sinc".toList.reverse ++ (padName t.name).reverse) := by
    have := congrArg List.reverse hbody
    simpa using this
  have hline : ∀ {age : Str}, 'e' ∉ age → IsLine 'e' (age.reverse ++ [' ', 'e']) := by
    intro age hage
    refine ⟨age.reverse ++ [' '], by simp, fun hmem => ?_⟩
    rcases List.mem_append.1 hmem with hmem | hmem
    · exact hage (List.mem_reverse.1 hmem)
    · revert hmem
      decide
  obtain ⟨hage, hname⟩ := (hline has).append_inj (hline hat) hrev
  have hage' : s.age = t.age := List.reverse_injective (List.append_cancel_right hage)
  have hname' : s.name = t.name := padName_inj hs ht (List.reverse_injective (List.append_cancel_left hname))
  cases s
  cases t
  simp only at hage' hname' hstatus
  rw [hage', hname', hstatus]

/-! ## The list -/

/-- What `list` has found to show. -/
def shownBy (dir : Str) (fs : Fs) (showAll : Bool) (now : Nat) (socks logs : List Look) : List Shown :=
  socks.filterMap (shownSocket dir fs now) ++ if showAll then logs.filterMap (shownLog dir fs now) else []

/-- The text that `println!` makes of lines. -/
def printed (lines : List Str) : Str := (lines.map (· ++ ['\n'])).flatten

theorem age_shownSocket {dir : Str} {fs : Fs} {now : Nat} {v : Look} {s : Shown} (h : shownSocket dir fs now v = some s) :
    s.age = v.age now := by
  simp only [shownSocket] at h
  split at h
  · cases h
  · split at h
    · cases h
    · split at h
      · cases h
      · split at h
        · split at h
          · cases h
            rfl
          · split at h <;> cases h
            rfl
        · cases h

theorem ageText_shownLog {dir : Str} {fs : Fs} {now : Nat} {v : Look} {s : Shown} (h : shownLog dir fs now v = some s) :
    AgeText s.age := by
  simp only [shownLog] at h
  split at h
  · cases h
  · split at h
    · cases h
    · split at h
      · cases h
      · split at h <;> cases h
        · exact ageText_formatAge _
        · show AgeText "unknown".toList
          exact ⟨by decide, by decide⟩

theorem ageText_shownBy {dir : Str} {fs : Fs} {showAll : Bool} {now : Nat} {socks logs : List Look} :
    ∀ s ∈ shownBy dir fs showAll now socks logs, AgeText s.age := by
  intro s hs
  rcases List.mem_append.1 hs with hs | hs
  · obtain ⟨v, -, hv⟩ := List.mem_filterMap.1 hs
    rw [age_shownSocket hv]
    exact ageText_formatAge _
  · cases showAll with
    | false => cases hs
    | true =>
      obtain ⟨v, -, hv⟩ := List.mem_filterMap.1 hs
      exact ageText_shownLog hv

theorem isLine_line {s : Shown} (hname : '\n' ∉ s.name) (hage : '\n' ∉ s.age) : IsLine '\n' (s.line ++ ['\n']) := by
  refine ⟨s.line, rfl, ?_⟩
  have htag : '\n' ∉ s.status.tag := by cases s.status <;> decide
  have hpad : '\n' ∉ padName s.name := by
    rw [padName, List.mem_append, not_or]
    exact ⟨hname, fun h => absurd (List.eq_of_mem_replicate h) (by decide)⟩
  rw [Shown.line]
  simp only [List.mem_append, not_or]
  exact ⟨⟨⟨⟨hpad, by decide⟩, hage⟩, by decide⟩, htag⟩

/-- The text of no sessions is no line of one. -/
theorem line_ne_noSessions (s : Shown) : s.line ≠ "(no sessions)".toList := by
  intro h
  have hlast := congrArg List.getLast? h
  have hend : " ago".toList ++ s.status.tag <:+ s.line := by
    rw [Shown.line, List.append_assoc]
    exact List.suffix_append _ _
  rw [h] at hend
  revert hend
  cases s.status <;> decide

theorem map_line_inj : ∀ {shown shown' : List Shown}, (∀ s ∈ shown, s.name.getLast? ≠ some ' ' ∧ 'e' ∉ s.age) →
    (∀ s ∈ shown', s.name.getLast? ≠ some ' ' ∧ 'e' ∉ s.age) → shown.map Shown.line = shown'.map Shown.line →
    shown = shown'
  | [], [], _, _, _ => rfl
  | [], _ :: _, _, _, h => by cases h
  | _ :: _, [], _, _, h => by cases h
  | s :: shown, s' :: shown', hs, hs', h => by
    obtain ⟨hhead, hhead'⟩ := And.intro (hs s List.mem_cons_self) (hs' s' List.mem_cons_self)
    obtain ⟨hline, hrest⟩ := List.cons.inj h
    rw [Shown.line_injective hhead.1 hhead'.1 hhead.2 hhead'.2 hline,
      map_line_inj (fun x hx => hs x (List.mem_cons_of_mem _ hx)) (fun x hx => hs' x (List.mem_cons_of_mem _ hx)) hrest]

theorem map_line_ne (shown : List Shown) : shown.map Shown.line ≠ ["(no sessions)".toList] := by
  intro h
  cases shown with
  | nil => cases h
  | cons s shown => exact line_ne_noSessions s (List.cons.inj h).1

section
variable {appLog dir : Str} {fs : Fs} {showAll quiet : Bool} {now : Nat} {socks logs : List Look} {a : RecordAns}

theorem list_lines (appLog : Str) (quiet : Bool) (a : RecordAns) :
    (list appLog dir fs showAll quiet now socks logs a).2 =
      if shownBy dir fs showAll now socks logs = [] ∧ quiet = false then ["(no sessions)".toList]
      else (shownBy dir fs showAll now socks logs).map Shown.line := by
  have hlist : list appLog dir fs showAll quiet now socks logs a =
      if shownBy dir fs showAll now socks logs = [] ∧ quiet = false then
        (record appLog fs { a with level := .info, message := "no sessions".toList }, ["(no sessions)".toList])
      else (fs, (shownBy dir fs showAll now socks logs).map Shown.line) := rfl
  rw [hlist]
  split <;> rfl

/-- What is printed is lines, as many as there are. -/
theorem isLine_list (h : ∀ s ∈ shownBy dir fs showAll now socks logs, PlainName s.name) :
    ∀ l ∈ (list appLog dir fs showAll quiet now socks logs a).2.map (· ++ ['\n']), IsLine '\n' l := by
  rw [list_lines, List.forall_mem_map]
  split
  · rintro l hl
    obtain rfl := List.mem_singleton.1 hl
    exact ⟨_, rfl, by decide⟩
  · rw [List.forall_mem_map]
    exact fun s hs => isLine_line (h s hs).1 (ageText_shownBy s hs).2

end

/-- **What `list` prints is read back**: two lists, of any directories at any times, that print one text have shown the same
sessions in the same order, by name, age and status, where no name breaks a line or ends in a blank; and the age of a session
says its seconds. -/
theorem list_reads_back {appLog appLog' dir dir' : Str} {fs fs' : Fs} {showAll showAll' quiet quiet' : Bool} {now now' : Nat}
    {socks socks' logs logs' : List Look} {a a' : RecordAns}
    (hplain : ∀ s ∈ shownBy dir fs showAll now socks logs, PlainName s.name)
    (hplain' : ∀ s ∈ shownBy dir' fs' showAll' now' socks' logs', PlainName s.name)
    (h : printed (list appLog dir fs showAll quiet now socks logs a).2 =
      printed (list appLog' dir' fs' showAll' quiet' now' socks' logs' a').2) :
    shownBy dir fs showAll now socks logs = shownBy dir' fs' showAll' now' socks' logs' ∧
      ∀ v s, shownSocket dir fs now v = some s → readAge s.age = v.clock - metaSecs v now := by
  refine ⟨?_, fun v s hv => by rw [age_shownSocket hv, Look.age, readAge_formatAge]⟩
  have hlines := Lines.flatten_lines_inj (isLine_list hplain) (isLine_list hplain') h
  have hsame := List.map_injective_iff.2 (fun _ _ h => List.append_cancel_right h) hlines
  rw [list_lines, list_lines] at hsame
  have hread : ∀ {dir : Str} {fs : Fs} {showAll : Bool} {now : Nat} {socks logs : List Look},
      (∀ s ∈ shownBy dir fs showAll now socks logs, PlainName s.name) →
      ∀ s ∈ shownBy dir fs showAll now socks logs, s.name.getLast? ≠ some ' ' ∧ 'e' ∉ s.age :=
    fun hplain s hs => ⟨(hplain s hs).2, (ageText_shownBy s hs).1⟩
  split at hsame
  · rename_i hnone
    split at hsame
    · rename_i hnone'
      rw [hnone.1, hnone'.1]
    · exact absurd hsame.symm (map_line_ne _)
  · split at hsame
    · exact absurd hsame (map_line_ne _)
    · exact map_line_inj (hread hplain) (hread hplain') hsame

/-- A directory with a live socket, a stale one and a log without a session. -/
def threeFiles (dir : Str) : Fs :=
  ((fileAt (join dir "s".toList) (.socket true)).make (join dir "t".toList) (.socket false)).make (join dir "u.log".toList)
    (.regular [])

/-- An entry that has not been touched for as long. -/
def lookAt (name : Str) (since : Nat) (age : Nat) : Look := ⟨os name, none, since, 0, true, since + age⟩

/-- Two directories, listed at different times. -/
theorem list_reads_back_one :
    let socks since := [lookAt "s".toList since 90000, lookAt "t".toList since 5]
    let logs since := [lookAt "u.log".toList since 61]
    let shown := shownBy "/d".toList (threeFiles "/d".toList) true 0 (socks 3) (logs 3)
    shown.map Shown.status = [.attached, .stale, .exited] ∧
      shown = shownBy "/e".toList (threeFiles "/e".toList) true 7 (socks 900) (logs 900) ∧
      ∀ v s, shownSocket "/d".toList (threeFiles "/d".toList) 0 v = some s → readAge s.age = v.clock - metaSecs v 0 := by
  intro socks logs shown
  have a : RecordAns := ⟨0, true, 0, true, 0⟩
  have hplain : ∀ s ∈ shown, PlainName s.name := by decide +kernel
  have hplain' : ∀ s ∈ shownBy "/e".toList (threeFiles "/e".toList) true 7 (socks 900) (logs 900), PlainName s.name := by
    decide +kernel
  have hlines : (list [] "/d".toList (threeFiles "/d".toList) true true 0 (socks 3) (logs 3) a).2 =
      (list [] "/e".toList (threeFiles "/e".toList) true false 7 (socks 900) (logs 900) a).2 := by
    rw [list_lines, list_lines]
    decide +kernel
  exact ⟨by decide +kernel, list_reads_back hplain hplain' (congrArg printed hlines)⟩

end Zatch
