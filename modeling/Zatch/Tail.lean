import Mathlib.Algebra.Order.Ring.Int
import Zatch.Protocol
/-!
# Tail — the end of the log (`find_tail_start`, `cmd_tail`)

`find_tail_start` scans the log backwards in chunks; chunk by chunk it is the scan of the whole (`tailLoop_spec`), which
stops after the newline it is to count up to (`findTailStart_exact`).  What `cmd_tail` prints from there on is the number
of lines it is asked for exactly when the last of them ends in a newline, or there are no more (`cmdTail_lines_iff`).
-/
namespace Zatch

def newline : Byte := 10

/-- Signed arithmetic of so many bits: in a build without overflow checks it wraps. -/
def signed (checks : Bool) (bits : Nat) (x : Int) : Except Panic Int :=
  if -2 ^ (bits - 1) ≤ x ∧ x < 2 ^ (bits - 1) then .ok x
  else if checks then .error .overflow
  else .ok (x.bmod (2 ^ bits))

def i32Max : Int := 2 ^ 31 - 1

/-- `as u64`. -/
def asU64 (x : Int) : Nat := (x % 2 ^ 64).toNat

/-- A regular file: no longer than an offset can count, and a read gets all it asks for that is there. -/
structure RegularFile where
  cells : List Byte
  got : Nat → Nat
  length_lt : cells.length < 2 ^ 63
  bufsize_le : ∀ pos, bufsize ≤ got pos

/-- A read at an offset of at most `count` bytes. -/
def RegularFile.read (f : RegularFile) (pos count : Nat) : List Byte := ((f.cells.drop pos).take count).take (f.got pos)

/-- The scan of one chunk: it has found where the tail starts, or it goes on with the count. -/
inductive Scan
  | found (start : Nat)
  | more (count : Int)
deriving DecidableEq, Repr

/-- `pos + i as i64 + 1`. -/
def offsetAfter (checks : Bool) (pos : Int) (i : Nat) : Except Panic Nat :=
  match signed checks 64 (pos + i) with
  | .error e => .error e
  | .ok x => (signed checks 64 (x + 1)).map asU64

/-- The loop of `find_tail_start` over a chunk, from its end. -/
def scanChunk (checks : Bool) (buf : List Byte) (pos nlines : Int) : Nat → Int → Except Panic Scan
  | 0, count => .ok (.more count)
  | i + 1, count =>
    if buf[i]? = some newline then
      match signed checks 32 (count + 1) with
      | .error e => .error e
      | .ok count =>
        if count > nlines then (offsetAfter checks pos i).map .found else scanChunk checks buf pos nlines i count
    else scanChunk checks buf pos nlines i count

/-- The loop of `find_tail_start`; `none` while it is still in it. -/
def tailLoop (checks : Bool) (f : RegularFile) (nlines : Int) : Nat → Int → Int → Option (Except Panic Nat)
  | 0, pos, count => if pos > 0 ∧ count ≤ nlines then none else some (.ok 0)
  | fuel + 1, pos, count =>
    if pos > 0 ∧ count ≤ nlines then
      let chunk := if pos > bufsize then (bufsize : Int) else pos
      match signed checks 64 (pos - chunk) with
      | .error e => some (.error e)
      | .ok pos =>
        let buf := f.read (asU64 pos) chunk.toNat
        if buf.length = 0 then some (.ok 0)
        else
          match scanChunk checks buf pos nlines buf.length count with
          | .error e => some (.error e)
          | .ok (.found start) => some (.ok start)
          | .ok (.more count) => tailLoop checks f nlines fuel pos count
    else some (.ok 0)

/-- `find_tail_start`.  A round takes a byte at least, so as many rounds as bytes are enough. -/
def findTailStart (checks : Bool) (f : RegularFile) (size : Nat) (nlines : Int) : Option (Except Panic Nat) :=
  tailLoop checks f nlines size ((size : Int).bmod (2 ^ 64)) 0

/-- What `cmd_tail` hands to `write_buf`, chunk by chunk from an offset on. -/
def catFrom (f : RegularFile) : Nat → Nat → List Byte
  | 0, _ => []
  | fuel + 1, pos =>
    let rbuf := f.read pos bufsize
    if rbuf.length = 0 then [] else rbuf ++ catFrom f fuel (pos + rbuf.length)

/-- `cmd_tail` without `-f`, from the opened log on: what it prints. -/
def cmdTail (checks : Bool) (f : RegularFile) (lines : Int) : Option (Except Panic (List Byte)) :=
  let n := if lines < 1 then 1 else lines
  let size := f.cells.length
  if size > 0 then (findTailStart checks f size n).map (·.map (fun start => catFrom f size start))
  else some (.ok [])

/-! ## The scan of the whole -/

/-- Where the newlines are. -/
def newlineOffsets (cells : List Byte) (len : Nat) : List Nat :=
  (List.range len).filter (fun i => cells[i]? = some newline)

/-- The offset just after the newline with this number, counted from the end, or the start of the file. -/
def tailStart (cells : List Byte) (n : Nat) : Nat :=
  match (newlineOffsets cells cells.length).reverse[n]? with
  | some i => i + 1
  | none => 0

/-- A scan backwards, byte by byte, with so many newlines counted. -/
def scanDown (cells : List Byte) (n : Nat) : Nat → Nat → Nat
  | 0, _ => 0
  | p + 1, count =>
    if cells[p]? = some newline then if count + 1 > n then p + 1 else scanDown cells n p (count + 1)
    else scanDown cells n p count

theorem newlineOffsets_succ (cells : List Byte) (p : Nat) : newlineOffsets cells (p + 1) =
    newlineOffsets cells p ++ if cells[p]? = some newline then [p] else [] := by
  unfold newlineOffsets
  rw [List.range_succ, List.filter_append]
  by_cases h : cells[p]? = some newline <;> simp [h]

theorem scanDown_eq (cells : List Byte) (n : Nat) : ∀ (p count : Nat), count ≤ n →
    scanDown cells n p count = ((newlineOffsets cells p).reverse[n - count]?).elim 0 (· + 1)
  | 0, _, _ => rfl
  | p + 1, count, hle => by
    rw [scanDown, newlineOffsets_succ]
    split
    · rw [List.reverse_append, List.reverse_singleton, List.singleton_append]
      split
      · have hzero : n - count = 0 := by omega
        rw [hzero, List.getElem?_cons_zero, Option.elim_some]
      · have hsucc : n - count = n - (count + 1) + 1 := by omega
        rw [hsucc, List.getElem?_cons_succ, scanDown_eq cells n p (count + 1) (by omega)]
    · rw [List.append_nil, scanDown_eq cells n p count hle]

theorem count_take_succ (cells : List Byte) (p : Nat) : (cells.take (p + 1)).count newline =
    (cells.take p).count newline + if cells[p]? = some newline then 1 else 0 := by
  rw [List.take_add_one, List.count_append]
  cases h : cells[p]? with
  | none => rfl
  | some b => by_cases hb : b = newline <;> simp [hb]

/-- **Where a scan backwards stops**: after a newline with the number asked for, or at the start when there are no more than
so many. -/
theorem scanDown_spec (cells : List Byte) (n : Nat) : ∀ (p count : Nat), count ≤ n →
    (scanDown cells n p count = 0 ∧ count + (cells.take p).count newline ≤ n) ∨
      ∃ q, scanDown cells n p count = q + 1 ∧ q < p ∧ cells[q]? = some newline ∧
        (cells.take (q + 1)).count newline + n = count + (cells.take p).count newline
  | 0, count, hle => .inl ⟨rfl, by simpa using hle⟩
  | p + 1, count, hle => by
    unfold scanDown
    have htake := count_take_succ cells p
    by_cases hnl : cells[p]? = some newline
    · rw [if_pos hnl] at htake ⊢
      split
      · exact .inr ⟨p, rfl, Nat.lt_succ_self p, hnl, by omega⟩
      · rcases scanDown_spec cells n p (count + 1) (by omega) with ⟨hzero, hfew⟩ | ⟨q, hq, hlt, hnl', hcount⟩
        · exact .inl ⟨hzero, by omega⟩
        · exact .inr ⟨q, hq, by omega, hnl', by omega⟩
    · rw [if_neg hnl] at htake ⊢
      rcases scanDown_spec cells n p count hle with ⟨hzero, hfew⟩ | ⟨q, hq, hlt, hnl', hcount⟩
      · exact .inl ⟨hzero, by omega⟩
      · exact .inr ⟨q, hq, by omega, hnl', by omega⟩

/-! ## The scan in chunks -/

theorem signed_of_fits {checks : Bool} {bits : Nat} {x : Int} (h : -2 ^ (bits - 1) ≤ x ∧ x < 2 ^ (bits - 1)) :
    signed checks bits x = .ok x := if_pos h

theorem asU64_natCast {n : Nat} (h : n < 2 ^ 64) : asU64 n = n := by
  unfold asU64
  omega

theorem offsetAfter_eq {checks : Bool} {p i : Nat} (h : p + i + 1 < 2 ^ 63) : offsetAfter checks p i = .ok (p + i + 1) := by
  have hat : signed checks 64 ((p : Int) + (i : Int)) = .ok ((p + i : Nat) : Int) := signed_of_fits (by omega)
  have hstart : signed checks 64 (((p + i : Nat) : Int) + 1) = .ok ((p + i + 1 : Nat) : Int) := signed_of_fits (by omega)
  rw [offsetAfter, hat]
  dsimp only
  rw [hstart, Except.map, asU64_natCast (by omega)]

/-- The count of newlines has room for what is still to be counted. -/
def Room (cells : List Byte) (n p count : Nat) : Prop :=
  n < i32Max ∨ n ≤ i32Max ∧ count + (cells.take p).count newline ≤ n

/-- **The scan of a chunk** is that much of the scan of the whole. -/
theorem scanChunk_spec (checks : Bool) {cells buf : List Byte} (hlen : cells.length < 2 ^ 63) {p n : Nat} :
    ∀ (i count : Nat), (∀ j, j < i → buf[j]? = cells[p + j]?) → p + i ≤ cells.length → count ≤ n → Room cells n (p + i) count →
    (∃ s, scanChunk checks buf p n i count = .ok (.found s) ∧ scanDown cells n (p + i) count = s) ∨
      ∃ count' : Nat, scanChunk checks buf p n i count = .ok (.more count') ∧ count' ≤ n ∧ Room cells n p count' ∧
        scanDown cells n (p + i) count = scanDown cells n p count'
  | 0, count, _, _, hle, hroom => .inr ⟨count, rfl, hle, hroom, rfl⟩
  | i + 1, count, hbuf, hp, hle, hroom => by
    have hbuf' : ∀ j, j < i → buf[j]? = cells[p + j]? := fun j hj => hbuf j (by omega)
    have htake := count_take_succ cells (p + i)
    unfold Room at hroom
    rw [← Nat.add_assoc] at hroom ⊢
    rw [scanChunk, scanDown, hbuf i (Nat.lt_succ_self i)]
    by_cases hnl : cells[p + i]? = some newline
    · rw [if_pos hnl] at htake
      rw [if_pos hnl, if_pos hnl]
      have hadd : signed checks 32 ((count : Int) + 1) = .ok ((count + 1 : Nat) : Int) := by
        rw [signed_of_fits (by unfold i32Max at hroom; omega)]
        rfl
      rw [hadd]
      dsimp only
      by_cases hover : count + 1 > n
      · rw [if_pos hover, if_pos (by omega), offsetAfter_eq (by omega)]
        exact .inl ⟨p + i + 1, rfl, rfl⟩
      · rw [if_neg hover, if_neg (by omega)]
        exact scanChunk_spec checks hlen i (count + 1) hbuf' (by omega) (by omega) (by unfold Room; omega)
    · rw [if_neg hnl] at htake
      rw [if_neg hnl, if_neg hnl]
      exact scanChunk_spec checks hlen i count hbuf' (by omega) hle (by unfold Room; omega)

theorem RegularFile.read_eq (f : RegularFile) {pos count : Nat} (h : count ≤ bufsize) :
    f.read pos count = (f.cells.drop pos).take count :=
  List.take_of_length_le (Nat.le_trans (List.length_take_le _ _) (Nat.le_trans h (f.bufsize_le pos)))

/-- **The scan in chunks is the scan of the whole.** -/
theorem tailLoop_spec (checks : Bool) (f : RegularFile) {n : Nat} : ∀ (fuel p count : Nat), p ≤ fuel →
    p ≤ f.cells.length → count ≤ n → Room f.cells n p count →
    tailLoop checks f n fuel p count = some (.ok (scanDown f.cells n p count))
  | fuel, 0, count, _, _, _, _ => by
    cases fuel with
    | zero => rw [tailLoop, if_neg (fun h => absurd h.1 (by decide))]; rfl
    | succ fuel => rw [tailLoop, if_neg (fun h => absurd h.1 (by decide))]; rfl
  | 0, p + 1, _, hfuel, _, _, _ => absurd hfuel (by simp)
  | fuel + 1, p + 1, count, hfuel, hp, hle, hroom => by
    have hlen := f.length_lt
    obtain ⟨k, q, hk, hpq, hkb⟩ : ∃ k q : Nat, 0 < k ∧ p + 1 = q + k ∧ k = min bufsize (p + 1) :=
      ⟨min bufsize (p + 1), p + 1 - min bufsize (p + 1), Nat.lt_min.2 ⟨by decide, Nat.succ_pos p⟩, by omega, rfl⟩
    have hchunk : (if ((p + 1 : Nat) : Int) > (bufsize : Int) then (bufsize : Int) else ((p + 1 : Nat) : Int)) = (k : Int) := by
      split <;> omega
    have hsub : signed checks 64 (((p + 1 : Nat) : Int) - (k : Int)) = .ok (q : Int) := by
      have hq : ((p + 1 : Nat) : Int) - (k : Int) = (q : Int) := by omega
      rw [hq]
      exact signed_of_fits (by omega)
    have hread : f.read q k = (f.cells.drop q).take k := f.read_eq (by omega)
    have hbuflen : ((f.cells.drop q).take k).length = k := by
      rw [List.length_take, List.length_drop]
      omega
    have hbuf : ∀ j, j < k → ((f.cells.drop q).take k)[j]? = f.cells[q + j]? := by
      intro j hj
      rw [List.getElem?_take_of_lt hj, List.getElem?_drop]
    rw [tailLoop, if_pos ⟨by omega, by omega⟩]
    dsimp only
    rw [hchunk, hsub]
    dsimp only
    rw [asU64_natCast (by omega), Int.toNat_natCast, hread, hbuflen, if_neg (by omega)]
    rw [hpq] at hp hroom hfuel ⊢
    rcases scanChunk_spec checks hlen k count hbuf hp hle hroom with ⟨s, hs, hscan⟩ | ⟨count', hs, hle', hroom', hscan⟩
    · rw [hs, hscan]
    · rw [hs, hscan]
      exact tailLoop_spec checks f fuel q count' (by omega) (by omega) hle' hroom'

theorem findTailStart_eq (checks : Bool) (f : RegularFile) {n : Nat} (h : Room f.cells n f.cells.length 0) :
    findTailStart checks f f.cells.length n = some (.ok (scanDown f.cells n f.cells.length 0)) := by
  have hlen := f.length_lt
  have hcast : (f.cells.length : Int).bmod (2 ^ 64) = f.cells.length := Int.bmod_eq_of_le_mul_two (by omega) (by omega)
  rw [findTailStart, hcast]
  exact tailLoop_spec checks f _ _ 0 (Nat.le_refl _) (Nat.le_refl _) (Nat.zero_le _) h

/-- **`find_tail_start`** ends, overflows nowhere, and finds what the newlines of the whole file say. -/
theorem findTailStart_exact (checks : Bool) (f : RegularFile) {nlines : Int} (h1 : 1 ≤ nlines) (h2 : nlines < i32Max) :
    findTailStart checks f f.cells.length nlines = some (.ok (tailStart f.cells nlines.toNat)) := by
  have hn : ((nlines.toNat : Nat) : Int) = nlines := Int.toNat_of_nonneg (by omega)
  have heq := findTailStart_eq checks f (n := nlines.toNat) (.inl (by omega))
  rw [hn] at heq
  rw [heq, scanDown_eq _ _ _ _ (Nat.zero_le _), Nat.sub_zero, tailStart]
  cases (newlineOffsets f.cells f.cells.length).reverse[nlines.toNat]? <;> rfl

/-- Three lines, the last of them not at its end. -/
def fragmentLog : RegularFile := ⟨[97, 10, 98, 10, 99], fun _ => bufsize, by decide, fun _ => Nat.le_refl _⟩

theorem findTailStart_exact_fragment :
    findTailStart true fragmentLog fragmentLog.cells.length 1 = some (.ok (tailStart fragmentLog.cells 1)) :=
  findTailStart_exact true fragmentLog (by decide) (by decide)

/-! ## The lines that are printed -/

/-- A last piece without a newline counts as a line. -/
def lineCount (cells : List Byte) : Nat :=
  cells.count newline + if cells = [] ∨ cells.getLast? = some newline then 0 else 1

theorem catFrom_eq (f : RegularFile) : ∀ (fuel pos : Nat), f.cells.length ≤ pos + fuel →
    catFrom f fuel pos = f.cells.drop pos
  | 0, pos, h => (List.drop_eq_nil_of_le h).symm
  | fuel + 1, pos, h => by
    rw [catFrom]
    simp only [f.read_eq (Nat.le_refl _)]
    by_cases hnil : ((f.cells.drop pos).take bufsize).length = 0
    · rw [if_pos hnil]
      rw [List.length_take, List.length_drop] at hnil
      rw [List.drop_eq_nil_of_le (by simp only [bufsize] at hnil; omega)]
    · rw [if_neg hnil, catFrom_eq f fuel _ (by omega), ← List.drop_drop]
      exact List.prefix_iff_eq_append.1 (List.take_prefix _ _)

/-- A count that is to go up to the largest number is never above it. -/
theorem signed_le {checks : Bool} {x y : Int} (h : signed checks 32 x = .ok y) : y ≤ i32Max := by
  unfold signed at h
  split at h
  · cases h
    unfold i32Max
    omega
  · split at h
    · cases h
    · cases h
      have := Int.bmod_lt (x := x) (m := 2 ^ 32) (by decide)
      unfold i32Max
      omega

theorem scanChunk_max {checks : Bool} {buf : List Byte} {pos : Int} {s : Nat} : ∀ (i : Nat) (count : Int),
    scanChunk checks buf pos i32Max i count ≠ .ok (.found s)
  | 0, count => fun h => by cases h
  | i + 1, count => by
    rw [scanChunk]
    split
    · cases hadd : signed checks 32 (count + 1) with
      | error e => exact fun h => by cases h
      | ok count' =>
        dsimp only
        rw [if_neg (Int.not_lt.2 (signed_le hadd))]
        exact scanChunk_max i _
    · exact scanChunk_max i count

/-- **With the largest number asked for**, only the start of the file is ever found. -/
theorem tailLoop_max {checks : Bool} {f : RegularFile} {s : Nat} : ∀ (fuel : Nat) (pos count : Int),
    tailLoop checks f i32Max fuel pos count = some (.ok s) → s = 0
  | 0, pos, count, h => by
    rw [tailLoop] at h
    split at h
    · cases h
    · cases h; rfl
  | fuel + 1, pos, count, h => by
    rw [tailLoop] at h
    split at h
    · dsimp only at h
      generalize (if pos > (bufsize : Int) then (bufsize : Int) else pos) = chunk at h
      split at h
      · cases h
      · split at h
        · cases h; rfl
        · split at h
          · cases h
          · rename_i hscan
            exact absurd hscan (scanChunk_max _ _)
          · exact tailLoop_max fuel _ _ h
    · cases h; rfl

theorem cmdTail_eq {checks : Bool} {f : RegularFile} {lines : Int} {n start : Nat} (hn : (n : Int) = max lines 1)
    (h : findTailStart checks f f.cells.length n = some (.ok start)) :
    cmdTail checks f lines = some (.ok (f.cells.drop start)) := by
  have hlines : (if lines < 1 then 1 else lines) = (n : Int) := by
    rw [hn]
    split <;> omega
  simp only [cmdTail, hlines]
  by_cases hlen : f.cells.length > 0
  · rw [if_pos hlen, h]
    have hcat := catFrom_eq f f.cells.length start (by omega)
    exact congrArg (fun out => some (Except.ok out)) hcat
  · rw [if_neg hlen, List.drop_eq_nil_of_le (by omega)]

theorem cmdTail_ok {checks : Bool} {f : RegularFile} {lines : Int} {n : Nat} {out : List Byte}
    (hn : (n : Int) = max lines 1) (hne : f.cells ≠ []) (h : cmdTail checks f lines = some (.ok out)) :
    ∃ start, findTailStart checks f f.cells.length n = some (.ok start) := by
  have hlines : (if lines < 1 then 1 else lines) = (n : Int) := by
    rw [hn]
    split <;> omega
  simp only [cmdTail, hlines] at h
  rw [if_pos (List.length_pos_iff.2 hne)] at h
  cases hfind : findTailStart checks f f.cells.length n with
  | none => rw [hfind] at h; cases h
  | some r =>
    cases r with
    | error e => rw [hfind] at h; cases h
    | ok start => exact ⟨start, rfl⟩

/-- A tail with a newline in it ends as the whole does. -/
theorem lineCount_drop {cells : List Byte} {k : Nat} (h : (cells.drop k).count newline ≠ 0) :
    lineCount (cells.drop k) + (cells.take k).count newline = lineCount cells := by
  have hne : cells.drop k ≠ [] := by
    intro hnil
    rw [hnil] at h
    exact h rfl
  have hne' : cells ≠ [] := by
    rintro rfl
    exact hne List.drop_nil
  have hlast : (cells.drop k).getLast? = cells.getLast? := by
    rw [List.getLast?_drop, if_neg (fun hle => hne (List.drop_eq_nil_of_le hle))]
  have hcount : (cells.take k).count newline + (cells.drop k).count newline = cells.count newline := by
    rw [← List.count_append, List.take_append_drop]
  simp only [lineCount, hne, hne', hlast, false_or]
  omega

/-- The tail that `cmd_tail` is to print: it begins a line, and has so many lines as it is asked for and the log has. -/
def TailOf (cells out : List Byte) (n : Nat) : Prop :=
  ∃ pre, cells = pre ++ out ∧ (pre = [] ∨ pre.getLast? = some newline) ∧ lineCount out = min n (lineCount cells)

theorem tailOf_self_iff (cells : List Byte) (n : Nat) : TailOf cells cells n ↔ lineCount cells ≤ n := by
  constructor
  · rintro ⟨pre, -, -, hcount⟩
    omega
  · intro h
    exact ⟨[], rfl, .inl rfl, by omega⟩

theorem count_le_lineCount (cells : List Byte) : cells.count newline ≤ lineCount cells := Nat.le_add_right _ _

theorem lineCount_eq_count_iff (cells : List Byte) (hne : cells ≠ []) :
    lineCount cells = cells.count newline ↔ cells.getLast? = some newline := by
  simp only [lineCount, hne, false_or]
  split
  · simp [*]
  · simp [*]

/-- **The tail after a newline**, with as many newlines in it as lines are asked for, is the one to print exactly when the
log ends in a newline. -/
theorem tailOf_drop_iff {cells : List Byte} {n q : Nat} (hn : 0 < n) (hq : cells[q]? = some newline)
    (hcount : (cells.take (q + 1)).count newline + n = cells.count newline) :
    TailOf cells (cells.drop (q + 1)) n ↔ cells.getLast? = some newline := by
  have hne : cells ≠ [] := by
    rintro rfl
    cases hq
  have hsplit : (cells.take (q + 1)).count newline + (cells.drop (q + 1)).count newline = cells.count newline := by
    rw [← List.count_append, List.take_append_drop]
  have hdrop : (cells.drop (q + 1)).count newline ≠ 0 := by omega
  have hlines := lineCount_drop hdrop
  have hle := count_le_lineCount cells
  rw [← lineCount_eq_count_iff cells hne]
  constructor
  · rintro ⟨pre, -, -, hpre⟩
    omega
  · intro heq
    refine ⟨cells.take (q + 1), (List.take_append_drop _ _).symm, .inr ?_, by omega⟩
    rw [List.take_add_one, hq, Option.toList_some, List.getLast?_concat]

/-- Where the count does not overflow, what is printed begins where the scan stops. -/
theorem cmdTail_lines_of_room {checks : Bool} {f : RegularFile} {lines : Int} {n : Nat} (hn : (n : Int) = max lines 1)
    (hroom : Room f.cells n f.cells.length 0) :
    (∃ out, cmdTail checks f lines = some (.ok out) ∧ TailOf f.cells out n) ↔
      lineCount f.cells ≤ n ∨ f.cells.getLast? = some newline ∧ lines < i32Max := by
  have hmax : i32Max = 2147483647 := rfl
  have hprint := cmdTail_eq hn (findTailStart_eq checks f hroom)
  have hout : ∀ out, cmdTail checks f lines = some (.ok out) → out = f.cells.drop (scanDown f.cells n f.cells.length 0) := by
    intro out h
    rw [hprint] at h
    cases h
    rfl
  have hiff : (∃ out, cmdTail checks f lines = some (.ok out) ∧ TailOf f.cells out n) ↔
      TailOf f.cells (f.cells.drop (scanDown f.cells n f.cells.length 0)) n :=
    ⟨fun ⟨out, h, htail⟩ => hout out h ▸ htail, fun h => ⟨_, hprint, h⟩⟩
  rw [hiff]
  rcases scanDown_spec f.cells n f.cells.length 0 (Nat.zero_le _) with ⟨hzero, hfew⟩ | ⟨q, hq, -, hnl, hcount⟩
  · rw [hzero, List.drop_zero, tailOf_self_iff]
    refine ⟨.inl, fun h => h.elim id (fun hend => ?_)⟩
    rw [List.take_length] at hfew
    have hne : f.cells ≠ [] := fun hnil => by rw [hnil] at hend; cases hend.1
    rw [(lineCount_eq_count_iff f.cells hne).2 hend.1]
    omega
  · rw [List.take_length] at hcount
    have hle := count_le_lineCount f.cells
    have htake : (f.cells.take (q + 1)).count newline ≠ 0 := by
      rw [count_take_succ, if_pos hnl]
      omega
    have hsmall : lines < i32Max := by
      rcases hroom with h | ⟨-, h⟩
      · omega
      · rw [List.take_length] at h
        omega
    rw [hq, tailOf_drop_iff (by omega) hnl (by omega), or_iff_right (by omega), and_iff_left hsmall]

/-- Asked for the largest number of lines, with more newlines than an `i32` can count, it prints the whole log or panics. -/
theorem not_cmdTail_lines {checks : Bool} {f : RegularFile} {lines : Int} {n : Nat} (hn : (n : Int) = max lines 1)
    (hlarge : (n : Int) = i32Max) (hmany : n < f.cells.count newline) :
    ¬ ∃ out, cmdTail checks f lines = some (.ok out) ∧ TailOf f.cells out n := by
  rintro ⟨out, hout, htail⟩
  have hle := count_le_lineCount f.cells
  have hne : f.cells ≠ [] := by
    intro hnil
    rw [hnil] at hmany
    exact Nat.not_lt_zero _ hmany
  obtain ⟨start, hstart⟩ := cmdTail_ok hn hne hout
  have hzero : start = 0 := tailLoop_max _ _ _ (hlarge ▸ hstart)
  rw [cmdTail_eq hn hstart, hzero, List.drop_zero] at hout
  cases hout
  have := (tailOf_self_iff f.cells n).1 htail
  omega

/-- **What `cmd_tail` prints** is the last lines of the log, as many as it is asked for and the log has, exactly when the
log has no more than that, or ends in a newline and fewer lines are asked for than an `i32` can count. -/
theorem cmdTail_lines_iff (checks : Bool) (f : RegularFile) {lines : Int} (hlines : lines ≤ i32Max) :
    (∃ out, cmdTail checks f lines = some (.ok out) ∧ TailOf f.cells out (max lines 1).toNat) ↔
      lineCount f.cells ≤ (max lines 1).toNat ∨ f.cells.getLast? = some newline ∧ lines < i32Max := by
  obtain ⟨n, hn⟩ : ∃ n : Nat, (n : Int) = max lines 1 := ⟨(max lines 1).toNat, Int.toNat_of_nonneg (by omega)⟩
  have hmax : i32Max = 2147483647 := rfl
  rw [← hn, Int.toNat_natCast]
  by_cases hroom : Room f.cells n f.cells.length 0
  · exact cmdTail_lines_of_room hn hroom
  · have hmany : n < f.cells.count newline := by
      by_contra hfew
      exact hroom (.inr ⟨by omega, by rw [List.take_length]; omega⟩)
    have hlarge : ¬ (n : Int) < i32Max := fun h => hroom (.inl h)
    have hle := count_le_lineCount f.cells
    exact iff_of_false (not_cmdTail_lines hn (by omega) hmany) (by omega)

theorem cmdTail_lines_two : ∃ out, cmdTail true ⟨[97, 10, 98, 10], fun _ => bufsize, by decide, fun _ => Nat.le_refl _⟩ 1 =
    some (.ok out) ∧ TailOf [97, 10, 98, 10] out (max (1 : Int) 1).toNat :=
  (cmdTail_lines_iff true ⟨[97, 10, 98, 10], fun _ => bufsize, by decide, fun _ => Nat.le_refl _⟩
    (show (1 : Int) ≤ i32Max by decide)).2 (.inr ⟨rfl, by decide⟩)

/-- Asked for one line of a log whose last has no newline yet, `cmd_tail` prints two. -/
theorem cmdTail_prints_fragment_and_more : ¬ ∀ (checks : Bool) (f : RegularFile) (lines : Int), lines ≤ i32Max →
    ∃ out, cmdTail checks f lines = some (.ok out) ∧ TailOf f.cells out (max lines 1).toNat := by
  intro h
  obtain ⟨out, hout, pre, -, -, hcount⟩ := h false fragmentLog 1 (by decide)
  have hroom : Room fragmentLog.cells 1 fragmentLog.cells.length 0 := .inl (by decide)
  rw [cmdTail_eq (n := 1) rfl (findTailStart_eq false fragmentLog hroom)] at hout
  cases hout
  revert hcount
  decide

end Zatch
