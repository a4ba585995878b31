import Mathlib.Algebra.Order.Ring.Nat
import Mathlib.Data.List.DropRight
import Zatch.Names
import Zatch.Sys
/-!
# Sizes — the sizes a user writes (`util.rs`)

`parse_size` reads the number with its width in mind and multiplies it without: `parseSize_exact_iff` says for which strings
the product makes a difference.
-/
namespace Zatch

/-- The characters that `char::is_whitespace` is true of. -/
def isWhitespace (c : Char) : Bool :=
  let n := c.toNat
  decide (9 ≤ n ∧ n ≤ 13 ∨ n = 0x20 ∨ n = 0x85 ∨ n = 0xa0 ∨ n = 0x1680 ∨ 0x2000 ≤ n ∧ n ≤ 0x200a ∨ n = 0x2028 ∨ n = 0x2029 ∨
    n = 0x202f ∨ n = 0x205f ∨ n = 0x3000)

def trim (s : Str) : Str := (s.dropWhile isWhitespace).rdropWhile isWhitespace

def stripSuffix (p : Char → Bool) (s : Str) : Option Str :=
  match s.getLast? with
  | some c => if p c then some s.dropLast else none
  | none => none

/-- The digits of a `str::parse::<usize>`, each step checked. -/
def pushDigits (bits : Nat) : Str → Nat → Option Nat
  | [], v => some v
  | c :: cs, v =>
    if c.isDigit then
      if 10 * v + (c.toNat - '0'.toNat) < 2 ^ bits then pushDigits bits cs (10 * v + (c.toNat - '0'.toNat)) else none
    else none

/-- `str::parse::<usize>`, where a `usize` has so many bits. -/
def parseUsize (bits : Nat) : Str → Option Nat
  | [] => none
  | ['+'] => none
  | '+' :: cs => pushDigits bits cs 0
  | cs => pushDigits bits cs 0

/-- `*` on `usize`: in a build without overflow checks it wraps. -/
def mulUsize (checks : Bool) (bits a b : Nat) : Except Panic Nat :=
  if a * b < 2 ^ bits then .ok (a * b) else if checks then .error .overflow else .ok (a * b % 2 ^ bits)

/-- The number that `parse_size` reads, and what it is multiplied by. -/
def splitSize (s : Str) : Str × Nat :=
  match stripSuffix (fun c => c = 'k' || c = 'K') s with
  | some r => (r, 1024)
  | none =>
    match stripSuffix (fun c => c = 'm' || c = 'M') s with
    | some r => (r, 1024 * 1024)
    | none => (s, 1)

/-- `parse_size`. -/
def parseSize (checks : Bool) (bits : Nat) (s : Str) : Except Panic (Option Nat) :=
  let (num, mul) := splitSize (trim s)
  match parseUsize bits num with
  | some v => (mulUsize checks bits v mul).map some
  | none => .ok none

/-! ## What a size means -/

/-- A number as a user writes it: digits, with or without a plus sign. -/
def Numeral (s : Str) (x : Nat) : Prop :=
  ∃ plus digits, s = plus ++ digits ∧ (plus = [] ∨ plus = ['+']) ∧ digits ≠ [] ∧ (∀ c ∈ digits, c.isDigit = true) ∧
    x = Nat.ofDigitChars 10 digits 0

/-- A suffix letter, or none, and what it multiplies by. -/
def Suffix (suffix : Str) (mul : Nat) : Prop :=
  suffix = [] ∧ mul = 1 ∨ (suffix = ['k'] ∨ suffix = ['K']) ∧ mul = 1024 ∨
    (suffix = ['m'] ∨ suffix = ['M']) ∧ mul = 1024 * 1024

def Denotes (s : Str) (x mul : Nat) : Prop := ∃ num suffix, s = num ++ suffix ∧ Numeral num x ∧ Suffix suffix mul

theorem le_ofDigitChars : ∀ (cs : Str) (v : Nat), v ≤ Nat.ofDigitChars 10 cs v
  | [], v => by rw [Nat.ofDigitChars_nil]
  | c :: cs, v => by
    rw [Nat.ofDigitChars_cons]
    have := le_ofDigitChars cs (10 * v + (c.toNat - '0'.toNat))
    omega

theorem pushDigits_eq_some_iff (bits : Nat) : ∀ (cs : Str) {v : Nat} (_ : v < 2 ^ bits) (x : Nat),
    pushDigits bits cs v = some x ↔ (∀ c ∈ cs, c.isDigit = true) ∧ x = Nat.ofDigitChars 10 cs v ∧ x < 2 ^ bits
  | [], v, hv, x => by
    rw [pushDigits, Nat.ofDigitChars_nil, Option.some_inj]
    exact ⟨fun h => ⟨by simp, h.symm, h ▸ hv⟩, fun h => h.2.1.symm⟩
  | c :: cs, v, hv, x => by
    rw [pushDigits, Nat.ofDigitChars_cons, List.forall_mem_cons]
    by_cases hc : c.isDigit = true
    · rw [if_pos hc, and_iff_right hc]
      split
      · rename_i hfits
        exact pushDigits_eq_some_iff bits cs hfits x
      · -- the value only grows from here on
        rename_i hover
        have hle := le_ofDigitChars cs (10 * v + (c.toNat - '0'.toNat))
        refine iff_of_false (by simp) (fun h => ?_)
        omega
    · rw [if_neg hc]
      exact iff_of_false (by simp) (fun h => hc h.1.1)

theorem not_isDigit_plus {cs : Str} : ¬ ∀ c ∈ '+' :: cs, c.isDigit = true := fun h =>
  absurd (h '+' List.mem_cons_self) (by decide)

theorem numeral_plus_iff {cs : Str} {x : Nat} :
    Numeral ('+' :: cs) x ↔ cs ≠ [] ∧ (∀ c ∈ cs, c.isDigit = true) ∧ x = Nat.ofDigitChars 10 cs 0 := by
  constructor
  · rintro ⟨plus, digits, hs, rfl | rfl, hne, hdigits, hx⟩
    · rw [List.nil_append] at hs
      rw [← hs] at hdigits
      exact absurd hdigits not_isDigit_plus
    · obtain rfl := (List.cons.inj hs).2
      exact ⟨hne, hdigits, hx⟩
  · rintro ⟨hne, hdigits, hx⟩
    exact ⟨['+'], cs, rfl, .inr rfl, hne, hdigits, hx⟩

theorem numeral_iff {s : Str} {x : Nat} (hs : ∀ cs, s ≠ '+' :: cs) :
    Numeral s x ↔ s ≠ [] ∧ (∀ c ∈ s, c.isDigit = true) ∧ x = Nat.ofDigitChars 10 s 0 := by
  constructor
  · rintro ⟨plus, digits, rfl, rfl | rfl, hne, hdigits, hx⟩
    · exact ⟨hne, hdigits, hx⟩
    · exact absurd rfl (hs digits)
  · rintro ⟨hne, hdigits, hx⟩
    exact ⟨[], s, rfl, .inl rfl, hne, hdigits, hx⟩

/-- **What `parse` accepts** is a number that fits. -/
theorem parseUsize_eq_some_iff (bits : Nat) (s : Str) (x : Nat) :
    parseUsize bits s = some x ↔ Numeral s x ∧ x < 2 ^ bits := by
  have hzero : 0 < 2 ^ bits := Nat.two_pow_pos bits
  unfold parseUsize
  split
  · rw [numeral_iff (by simp)]
    simp
  · rw [numeral_plus_iff]
    simp
  · rename_i cs hcs
    rw [numeral_plus_iff, pushDigits_eq_some_iff bits cs hzero, and_iff_right (fun h => hcs (by rw [h])), and_assoc]
  · rename_i hnil _ hplus
    rw [numeral_iff (fun cs h => hplus cs h), pushDigits_eq_some_iff bits _ hzero, and_iff_right hnil, and_assoc]

theorem numeral_unique {s : Str} {x y : Nat} (hx : Numeral s x) (hy : Numeral s y) : x = y := by
  by_cases hs : ∃ cs, s = '+' :: cs
  · obtain ⟨cs, rfl⟩ := hs
    exact (numeral_plus_iff.1 hx).2.2.trans (numeral_plus_iff.1 hy).2.2.symm
  · have hs' : ∀ cs, s ≠ '+' :: cs := fun cs h => hs ⟨cs, h⟩
    exact ((numeral_iff hs').1 hx).2.2.trans ((numeral_iff hs').1 hy).2.2.symm

theorem stripSuffix_concat (p : Char → Bool) (r : Str) (c : Char) :
    stripSuffix p (r ++ [c]) = if p c then some r else none := by
  rw [stripSuffix, List.getLast?_concat, List.dropLast_concat]

/-- A number ends in a digit, which is no suffix letter. -/
theorem stripSuffix_numeral {s : Str} {x : Nat} (h : Numeral s x) {p : Char → Bool} (hp : ∀ c, p c = true → c.isDigit = false) :
    stripSuffix p s = none := by
  obtain ⟨plus, digits, rfl, -, hne, hdigits, -⟩ := h
  obtain ⟨front, d, rfl⟩ := (List.eq_nil_or_concat' digits).resolve_left hne
  rw [← List.append_assoc, stripSuffix_concat, if_neg]
  intro hd
  have := hdigits d (by simp)
  rw [hp d hd] at this
  cases this

theorem splitSize_spec (s : Str) :
    ∃ suffix, s = (splitSize s).1 ++ suffix ∧ Suffix suffix (splitSize s).2 := by
  rcases List.eq_nil_or_concat' s with rfl | ⟨r, c, rfl⟩
  · exact ⟨[], rfl, .inl ⟨rfl, rfl⟩⟩
  · unfold splitSize
    rw [stripSuffix_concat, stripSuffix_concat]
    by_cases hk : (c = 'k' || c = 'K') = true
    · rw [if_pos hk]
      refine ⟨[c], rfl, .inr (.inl ⟨?_, rfl⟩)⟩
      simpa using hk
    · rw [if_neg hk]
      by_cases hm : (c = 'm' || c = 'M') = true
      · rw [if_pos hm]
        refine ⟨[c], rfl, .inr (.inr ⟨?_, rfl⟩)⟩
        simpa using hm
      · rw [if_neg hm]
        exact ⟨[], (List.append_nil _).symm, .inl ⟨rfl, rfl⟩⟩

/-- **What a size means** is what `parse_size` takes it apart into. -/
theorem denotes_iff (s : Str) (x mul : Nat) : Denotes s x mul ↔ Numeral (splitSize s).1 x ∧ mul = (splitSize s).2 := by
  constructor
  · rintro ⟨num, suffix, rfl, hnum, ⟨rfl, rfl⟩ | ⟨rfl | rfl, rfl⟩ | ⟨rfl | rfl, rfl⟩⟩
    · have hsplit : splitSize (num ++ []) = (num, 1) := by
        rw [List.append_nil, splitSize, stripSuffix_numeral hnum, stripSuffix_numeral hnum]
        · intro c hc
          rcases (by simpa using hc : c = 'm' ∨ c = 'M') with rfl | rfl <;> decide
        · intro c hc
          rcases (by simpa using hc : c = 'k' ∨ c = 'K') with rfl | rfl <;> decide
      rw [hsplit]
      exact ⟨hnum, rfl⟩
    all_goals
      simp only [splitSize, stripSuffix_concat]
      exact ⟨hnum, rfl⟩
  · rintro ⟨hnum, rfl⟩
    obtain ⟨suffix, hs, hunit⟩ := splitSize_spec s
    exact ⟨_, suffix, hs, hnum, hunit⟩

/-- A size whose number fits and whose product does not. -/
def Overflows (bits : Nat) (s : Str) : Prop := ∃ x mul, Denotes (trim s) x mul ∧ x < 2 ^ bits ∧ 2 ^ bits ≤ x * mul

/-- Digits have one value, so a size is of one number. -/
theorem exists_numeral_iff {num : Str} {x : Nat} (hx : Numeral num x) (mul : Nat) (P : Nat → Nat → Prop) :
    (∃ y m, (Numeral num y ∧ m = mul) ∧ P y m) ↔ P x mul := by
  constructor
  · rintro ⟨y, m, ⟨hy, rfl⟩, h⟩
    rwa [numeral_unique hx hy]
  · exact fun h => ⟨x, mul, ⟨hx, rfl⟩, h⟩

theorem splitSize_pos (s : Str) : 0 < (splitSize s).2 := by
  obtain ⟨suffix, -, hunit⟩ := splitSize_spec s
  rcases hunit with ⟨-, h⟩ | ⟨-, h⟩ | ⟨-, h⟩ <;> rw [h] <;> decide

/-- The product of a number that was read: a build with checks panics, and one without returns what is left of it. -/
theorem mulUsize_exact_iff (checks : Bool) (bits x mul : Nat) :
    (∃ r, (mulUsize checks bits x mul).map some = .ok r ∧ ∀ v, r = some v ↔ x * mul < 2 ^ bits ∧ v = x * mul) ↔
      x * mul < 2 ^ bits := by
  unfold mulUsize
  constructor
  · rintro ⟨r, hr, hspec⟩
    by_contra hprod
    rw [if_neg hprod] at hr
    cases checks with
    | true => cases hr
    | false =>
      obtain rfl := Except.ok.inj hr
      exact hprod ((hspec _).1 rfl).1
  · intro hprod
    rw [if_pos hprod]
    refine ⟨some (x * mul), rfl, fun v => ?_⟩
    rw [Option.some_inj, and_iff_right hprod]
    exact eq_comm

/-- **`parse_size` returns the exact product of every size that has one that fits, and nothing for any other string**, and
does not panic, exactly for the strings that are no number that fits with a product that does not. -/
theorem parseSize_exact_iff (checks : Bool) (bits : Nat) (s : Str) :
    (∃ r, parseSize checks bits s = .ok r ∧
      ∀ v, r = some v ↔ ∃ x mul, Denotes (trim s) x mul ∧ x * mul < 2 ^ bits ∧ v = x * mul) ↔ ¬ Overflows bits s := by
  have hmul := splitSize_pos (trim s)
  unfold Overflows parseSize
  simp only [denotes_iff]
  generalize splitSize (trim s) = split at hmul
  obtain ⟨num, mul⟩ := split
  simp only at hmul ⊢
  cases hparse : parseUsize bits num with
  | none =>
    have hnone : ∀ x, Numeral num x → 2 ^ bits ≤ x := fun x hx => by
      by_contra hlt
      rw [(parseUsize_eq_some_iff bits num x).2 ⟨hx, Nat.not_le.1 hlt⟩] at hparse
      cases hparse
    refine iff_of_true ⟨none, rfl, fun v => iff_of_false (by simp) ?_⟩ ?_
    · rintro ⟨x, m, ⟨hx, rfl⟩, hfits, -⟩
      have := hnone x hx
      have := Nat.le_mul_of_pos_right x hmul
      omega
    · rintro ⟨x, m, ⟨hx, -⟩, hfits, -⟩
      have := hnone x hx
      omega
  | some x =>
    obtain ⟨hx, hfits⟩ := (parseUsize_eq_some_iff bits num x).1 hparse
    have hspec := fun v => exists_numeral_iff hx mul (fun y m => y * m < 2 ^ bits ∧ v = y * m)
    have hover := exists_numeral_iff hx mul (fun y m => y < 2 ^ bits ∧ 2 ^ bits ≤ y * m)
    simp only [hspec, hover, hfits, true_and, Nat.not_le]
    exact mulUsize_exact_iff checks bits x mul

/-- A product of exactly 2^64 is read as zero, which turns the log off. -/
theorem parseSize_wraps : ¬ ∀ (checks : Bool) (bits : Nat) (s : Str), ∃ r, parseSize checks bits s = .ok r ∧
    ∀ v, r = some v ↔ ∃ x mul, Denotes (trim s) x mul ∧ x * mul < 2 ^ bits ∧ v = x * mul := by
  intro h
  obtain ⟨r, hr, hspec⟩ := h false 64 "18014398509481984k".toList
  have hzero : parseSize false 64 "18014398509481984k".toList = .ok (some 0) := by decide +kernel
  rw [hzero, Except.ok.injEq] at hr
  obtain ⟨x, mul, hden, -, hprod⟩ := (hspec 0).1 hr.symm
  have hdigits : "18014398509481984".toList.all Char.isDigit = true := by decide
  have hden' : Denotes (trim "18014398509481984k".toList) 18014398509481984 1024 :=
    ⟨"18014398509481984".toList, ['k'], by decide +kernel,
      ⟨[], "18014398509481984".toList, rfl, .inl rfl, by simp, List.all_eq_true.1 hdigits, by decide +kernel⟩,
      .inr (.inl ⟨.inl rfl, rfl⟩)⟩
  rw [denotes_iff] at hden hden'
  rw [numeral_unique hden.1 hden'.1, hden.2, ← hden'.2] at hprod
  cases hprod

end Zatch
