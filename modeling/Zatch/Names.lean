import Mathlib.Data.List.Basic
/-!
# Names — session names and the paths made of them (`util.rs`)

A Rust string is a list of characters.  What the code takes apart at a separator it takes apart with `split`, which is
`List.splitOn`, and with `rsplit(..).next()`, which is the last segment.
-/
namespace Zatch

abbrev Str := List Char

def utf8 (s : Str) : List UInt8 := s.flatMap String.utf8EncodeChar

/-- An ASCII byte of an encoded character is the character. -/
theorem toNat_of_mem_utf8EncodeChar {b : UInt8} {c : Char} (h : b ∈ String.utf8EncodeChar c) (hb : b.toNat < 128) :
    c.toNat = b.toNat := by
  have hlow : ∀ n m : Nat, 128 ≤ m → n + m < 256 → ¬ (UInt8.ofNat (n + m)).toNat < 128 := by
    intro n m hm hlt
    rw [UInt8.toNat_ofNat', Nat.mod_eq_of_lt hlt]
    omega
  unfold String.utf8EncodeChar at h
  dsimp only at h
  split at h
  · rename_i hle
    rw [List.mem_singleton] at h
    rw [h, UInt8.toNat_ofNat', Nat.mod_eq_of_lt (by omega)]
    rfl
  · -- in a longer encoding no byte is ASCII
    split at h
    · simp only [List.mem_cons, List.not_mem_nil, or_false] at h
      rcases h with rfl | rfl <;> exact absurd hb (hlow _ _ (by omega) (by omega))
    · split at h
      · simp only [List.mem_cons, List.not_mem_nil, or_false] at h
        rcases h with rfl | rfl | rfl <;> exact absurd hb (hlow _ _ (by omega) (by omega))
      · simp only [List.mem_cons, List.not_mem_nil, or_false] at h
        rcases h with rfl | rfl | rfl | rfl <;> exact absurd hb (hlow _ _ (by omega) (by omega))

/-- An ASCII character that a string does not have is not among its bytes. -/
theorem not_mem_utf8 {b : UInt8} {c : Char} {s : Str} (hc : c ∉ s) (hbc : b.toNat = c.toNat) (hb : b.toNat < 128) :
    b ∉ utf8 s := by
  intro h
  obtain ⟨c', hc', hmem⟩ := List.mem_flatMap.1 h
  have hsame : c' = c := Char.toNat_inj.1 ((toNat_of_mem_utf8EncodeChar hmem hb).trans hbc)
  exact hc (hsame ▸ hc')

/-- `s.rsplit(sep).next()`. -/
def lastSegment (sep : Char) (s : Str) : Str := ((s.splitOn sep).getLast?).getD s

/-- `Path::join` of a relative path. -/
def join (dir name : Str) : Str := if dir.getLast? = some '/' then dir ++ name else dir ++ '/' :: name

/-- What a session's names depend on, besides the command line: `$HOME` and the process's number. -/
structure Env where
  home : Option Str
  pid : Nat
deriving DecidableEq, Repr

/-- `get_session_dir`. -/
def sessionDir (env : Env) (progname : Str) : Str :=
  let base := lastSegment '/' progname
  let tmp := "/tmp/.".toList ++ base ++ '-' :: (toString env.pid).toList
  match env.home with
  | some h => if h = [] ∨ h = ['/'] then tmp else join (join h ".cache".toList) base
  | none => tmp

def expandSockname (env : Env) (progname name : Str) : Str :=
  if '/' ∈ name then name else join (sessionDir env progname) name

theorem join_ne_nil (dir name : Str) : join dir name ≠ [] := by
  unfold join
  split
  · rename_i h
    intro hnil
    rw [(List.append_eq_nil_iff.1 hnil).1] at h
    cases h
  · exact List.append_ne_nil_of_right_ne_nil _ (List.cons_ne_nil _ _)

theorem expandSockname_ne_nil (env : Env) (progname name : Str) : expandSockname env progname name ≠ [] := by
  unfold expandSockname
  split
  · rename_i h
    exact List.ne_nil_of_mem h
  · exact join_ne_nil _ _

/-- The segments of a split do not have the separator. -/
theorem not_mem_of_mem_splitOn {sep : Char} {s seg : Str} (h : seg ∈ s.splitOn sep) : sep ∉ seg := by
  induction s generalizing seg with
  | nil =>
    rw [List.splitOn_nil, List.mem_singleton] at h
    simp [h]
  | cons c s ih =>
    rw [List.splitOn_cons_eq_if_modifyHead] at h
    by_cases hc : c = sep
    · rw [if_pos (by simp [hc]), List.mem_cons] at h
      exact h.elim (fun hnil => by simp [hnil]) ih
    · rw [if_neg (by simp [hc])] at h
      have hsegs := List.splitOn_ne_nil sep s
      cases hsplit : s.splitOn sep with
      | nil => exact absurd hsplit hsegs
      | cons first rest =>
        simp only [hsplit, List.modifyHead_cons, List.mem_cons] at h ih
        rcases h with rfl | h
        · exact fun hmem => (List.mem_cons.1 hmem).elim (Ne.symm hc) (ih (.inl rfl))
        · exact ih (.inr h)

end Zatch
