import Zatch.Protocol
import Zatch.Lib.Cyclic
/-!
# Scrollback — the replay ring and its cursor (`scrollback.rs`)

`Scrollback.append` is the source's, with its panics: a slice out of bounds is `none`.  A `Ring` is a scrollback whose
three fields fit together; on rings the append never panics (`Ring.append_eq`) and keeps the latest `scrollbackSize`
bytes of what there was and what is new (`Ring.contents_append`).  `ReplayState.drain` writes a window of the ring from
its cursor on (`ReplayState.drain_window`), and goes on where it stopped (`ReplayState.drain_sends_first`).
-/
namespace Zatch

structure Scrollback where
  buf : List Byte
  head : Nat
  len : Nat
deriving DecidableEq

def slice (data : List Byte) (lo hi : Nat) : Option (List Byte) :=
  if lo ≤ hi ∧ hi ≤ data.length then some ((data.take hi).drop lo) else none

def copyFromSlice (buf : List Byte) (lo hi : Nat) (src : List Byte) : Option (List Byte) :=
  if lo ≤ hi ∧ hi ≤ buf.length ∧ hi - lo = src.length then some (Cyclic.splice buf lo src) else none

namespace Scrollback

def new : Scrollback := ⟨List.replicate scrollbackSize 0, 0, 0⟩

/-- `Scrollback::append`, from the trimmed data on. -/
def appendTrimmed (s : Scrollback) (data : List Byte) : Option Scrollback := do
  let mask := scrollbackSize - 1
  let wp := (s.head + s.len) &&& mask
  let n1 := min (scrollbackSize - wp) data.length
  let front ← slice data 0 n1
  let buf ← copyFromSlice s.buf wp (wp + n1) front
  let back ← slice data n1 data.length
  let buf ← (if n1 < data.length then copyFromSlice buf 0 (data.length - n1) back else some buf)
  let newTotal := s.len + data.length
  if newTotal ≤ scrollbackSize then some ⟨buf, s.head, newTotal⟩
  else some ⟨buf, (s.head + newTotal - scrollbackSize) &&& mask, scrollbackSize⟩

def append (s : Scrollback) (data : List Byte) : Option Scrollback :=
  if data = [] then some s
  else if data.length ≥ scrollbackSize then do
    let data ← slice data (data.length - scrollbackSize) data.length
    appendTrimmed s data
  else appendTrimmed s data

def contents (s : Scrollback) : List Byte := Cyclic.window s.buf s.head s.len

end Scrollback

/-- A scrollback whose fields fit together. -/
structure Ring extends Scrollback where
  buf_length : buf.length = scrollbackSize
  head_lt : head < scrollbackSize
  len_le : len ≤ scrollbackSize

theorem scrollbackSize_pos : 0 < scrollbackSize := by decide

theorem land_mask (n : Nat) : n &&& (scrollbackSize - 1) = n % scrollbackSize :=
  Nat.and_two_pow_sub_one_eq_mod n 17

namespace Ring

def new : Ring := ⟨Scrollback.new, List.length_replicate, scrollbackSize_pos, Nat.zero_le _⟩

def tail (r : Ring) : Nat := (r.head + r.len) % scrollbackSize

theorem tail_lt (r : Ring) : r.tail < r.buf.length := by
  rw [r.buf_length]; exact Nat.mod_lt _ scrollbackSize_pos

theorem rtake_le (r : Ring) (data : List Byte) : (data.rtake scrollbackSize).length ≤ r.buf.length := by
  rw [Cyclic.length_rtake, r.buf_length]; omega

def append (r : Ring) (data : List Byte) : Ring where
  buf := Cyclic.write r.buf r.tail (data.rtake scrollbackSize)
  head := (r.head + (r.len + (data.rtake scrollbackSize).length - scrollbackSize)) % scrollbackSize
  len := min (r.len + (data.rtake scrollbackSize).length) scrollbackSize
  buf_length := by rw [Cyclic.length_write r.tail_lt (r.rtake_le data), r.buf_length]
  head_lt := Nat.mod_lt _ scrollbackSize_pos
  len_le := Nat.min_le_right _ _

theorem slice_take (data : List Byte) (m : Nat) : slice data 0 (min m data.length) = some (data.take m) := by
  rw [slice, if_pos ⟨Nat.zero_le _, Nat.min_le_right _ _⟩, List.drop_zero]
  rcases Nat.le_total m data.length with h | h
  · rw [Nat.min_eq_left h]
  · rw [Nat.min_eq_right h, List.take_of_length_le h, List.take_length]

theorem slice_drop (data : List Byte) (m : Nat) : slice data (min m data.length) data.length = some (data.drop m) := by
  rw [slice, if_pos ⟨Nat.min_le_right _ _, Nat.le_refl _⟩, List.take_length]
  rcases Nat.le_total m data.length with h | h
  · rw [Nat.min_eq_left h]
  · rw [Nat.min_eq_right h, List.drop_eq_nil_of_le h, List.drop_length]

theorem slice_rtake (data : List Byte) (n : Nat) : slice data (data.length - n) data.length = some (data.rtake n) := by
  simp [slice, List.rtake]

theorem splice_nil (cells : List Byte) : Cyclic.splice cells 0 [] = cells := by
  simp [Cyclic.splice]

theorem appendTrimmed_eq (r : Ring) (data : List Byte) (hd : data.length ≤ scrollbackSize) :
    r.toScrollback.appendTrimmed data = some (r.append data).toScrollback := by
  have hr : data.rtake scrollbackSize = data := Cyclic.rtake_of_length_le data _ hd
  have hwp : (r.head + r.len) &&& (scrollbackSize - 1) = r.tail := land_mask _
  have htl : r.tail < scrollbackSize := by rw [← r.buf_length]; exact r.tail_lt
  have hb := r.buf_length
  have hcopy : copyFromSlice r.buf r.tail (r.tail + min (scrollbackSize - r.tail) data.length)
      (data.take (scrollbackSize - r.tail)) = some (Cyclic.splice r.buf r.tail (data.take (scrollbackSize - r.tail))) := by
    rw [copyFromSlice, if_pos ⟨by omega, by omega, by rw [List.length_take]; omega⟩]
  have hlen : (Cyclic.splice r.buf r.tail (data.take (scrollbackSize - r.tail))).length = scrollbackSize := by
    rw [Cyclic.length_splice _ _ _ (by rw [List.length_take]; omega), hb]
  have hbuf : (if min (scrollbackSize - r.tail) data.length < data.length then
        copyFromSlice (Cyclic.splice r.buf r.tail (data.take (scrollbackSize - r.tail))) 0
          (data.length - min (scrollbackSize - r.tail) data.length) (data.drop (scrollbackSize - r.tail))
      else some (Cyclic.splice r.buf r.tail (data.take (scrollbackSize - r.tail))))
      = some (Cyclic.write r.buf r.tail data) := by
    unfold Cyclic.write
    rw [hb]
    split
    · rw [copyFromSlice, if_pos ⟨Nat.zero_le _, by omega, by rw [List.length_drop]; omega⟩]
    · rw [List.drop_eq_nil_of_le (by omega), splice_nil]
  have hnew : (r.append data).toScrollback =
      ⟨Cyclic.write r.buf r.tail data, (r.head + (r.len + data.length - scrollbackSize)) % scrollbackSize,
        min (r.len + data.length) scrollbackSize⟩ := by
    simp only [append, hr]
  simp only [Scrollback.appendTrimmed, hwp, slice_take, hcopy, slice_drop, hbuf, Option.bind_eq_bind, Option.bind_some, hnew,
    land_mask]
  by_cases hle : r.len + data.length ≤ scrollbackSize
  · rw [if_pos hle, Nat.sub_eq_zero_of_le hle, Nat.add_zero, Nat.mod_eq_of_lt r.head_lt, Nat.min_eq_left hle]
  · rw [if_neg hle, Nat.min_eq_right (by omega), Nat.add_sub_assoc (by omega)]

/-- **The source's append on a ring is the ring's**: no slice is out of bounds, and the fields fit again. -/
theorem append_eq (r : Ring) (data : List Byte) : r.toScrollback.append data = some (r.append data).toScrollback := by
  unfold Scrollback.append
  by_cases hnil : data = []
  · subst hnil
    have hwrite : Cyclic.write r.buf r.tail [] = r.buf := by
      simp [Cyclic.write, Cyclic.splice]
    simp only [if_true, append, List.rtake_nil, hwrite, List.length_nil, Nat.add_zero,
      Nat.sub_eq_zero_of_le r.len_le, Nat.mod_eq_of_lt r.head_lt, Nat.min_eq_left r.len_le]
  · rw [if_neg hnil]
    by_cases hge : data.length ≥ scrollbackSize
    · have hlen : (data.rtake scrollbackSize).length = scrollbackSize := by rw [Cyclic.length_rtake]; omega
      have htrim : r.append (data.rtake scrollbackSize) = r.append data := by
        simp only [append, Cyclic.rtake_of_length_le _ _ (Nat.le_of_eq hlen)]
      rw [if_pos hge, slice_rtake, Option.bind_eq_bind, Option.bind_some, appendTrimmed_eq r _ (Nat.le_of_eq hlen), htrim]
    · rw [if_neg hge]
      exact appendTrimmed_eq r data (by omega)

theorem length_contents (r : Ring) : r.contents.length = r.len := Cyclic.length_window _ _ _

/-- **An append keeps the latest bytes.** -/
theorem contents_append (r : Ring) (data : List Byte) :
    (r.append data).contents = (r.contents ++ data).rtake scrollbackSize := by
  have h := Cyclic.window_append r.buf (data.rtake scrollbackSize) r.head r.len
    (by rw [r.buf_length]; exact scrollbackSize_pos) (by rw [r.buf_length]; exact r.len_le) (r.rtake_le data)
  simp only [r.buf_length] at h
  have hmod : (r.head + (r.len + (data.rtake scrollbackSize).length - scrollbackSize)) % scrollbackSize
      % (r.append data).buf.length
      = (r.head + (r.len + (data.rtake scrollbackSize).length - scrollbackSize)) % (r.append data).buf.length := by
    rw [(r.append data).buf_length, Nat.mod_mod]
  calc (r.append data).contents
    _ = (r.contents ++ data.rtake scrollbackSize).rtake scrollbackSize :=
        (Cyclic.window_of_mod_eq _ hmod).trans h
    _ = (r.contents ++ data).rtake scrollbackSize := by
        rcases Nat.le_total data.length scrollbackSize with hle | hge
        · rw [Cyclic.rtake_of_length_le data _ hle]
        · have hlen : (data.rtake scrollbackSize).length = scrollbackSize := by rw [Cyclic.length_rtake]; omega
          rw [Cyclic.rtake_append_of_le _ _ _ (Nat.le_of_eq hlen.symm), Cyclic.rtake_append_of_le _ _ _ hge,
            Cyclic.rtake_of_length_le _ _ (Nat.le_of_eq hlen)]

end Ring

theorem foldlM_append_eq : ∀ (chunks : List (List Byte)) (r : Ring),
    chunks.foldlM Scrollback.append r.toScrollback = some (chunks.foldl Ring.append r).toScrollback
  | [], _ => rfl
  | data :: chunks, r => by
    rw [List.foldlM_cons, Ring.append_eq, Option.bind_eq_bind, Option.bind_some, foldlM_append_eq chunks,
      List.foldl_cons]

theorem contents_foldl_append : ∀ (chunks : List (List Byte)) (r : Ring),
    (chunks.foldl Ring.append r).contents = (r.contents ++ chunks.flatten).rtake scrollbackSize
  | [], r => by
    have := r.len_le
    rw [List.flatten_nil, List.append_nil, Cyclic.rtake_of_length_le _ _ (by rw [r.length_contents]; exact this)]
    rfl
  | data :: chunks, r => by
    rw [List.foldl_cons, contents_foldl_append chunks, Ring.contents_append, Cyclic.rtake_rtake_append,
      List.flatten_cons, List.append_assoc]

/-- **Every run of appends to a new scrollback** stays inside the buffer, keeps its fields in range, and leaves the
latest bytes of everything appended. -/
theorem append_keeps_latest (chunks : List (List Byte)) :
    ∃ s, chunks.foldlM Scrollback.append Scrollback.new = some s ∧
      s.buf.length = scrollbackSize ∧ s.head < scrollbackSize ∧ s.len ≤ scrollbackSize ∧
      s.len = min chunks.flatten.length scrollbackSize ∧
      ∀ i, i < s.len →
        s.buf[(s.head + i) % scrollbackSize]? = (chunks.flatten.rtake scrollbackSize)[i]? := by
  have hcon := contents_foldl_append chunks Ring.new
  have hnew : Ring.new.contents = [] := Cyclic.window_zero _ _
  rw [hnew, List.nil_append] at hcon
  generalize hs : chunks.foldl Ring.append Ring.new = r at hcon
  have hlen : r.len = min chunks.flatten.length scrollbackSize := by
    rw [← r.length_contents, hcon, Cyclic.length_rtake]
  refine ⟨r.toScrollback, ?_, r.buf_length, r.head_lt, r.len_le, hlen, fun i hi => ?_⟩
  · rw [← hs]
    exact foldlM_append_eq chunks Ring.new
  · have hpos : 0 < r.buf.length := by rw [r.buf_length]; exact scrollbackSize_pos
    rw [← hcon, Scrollback.contents, Cyclic.getElem?_window _ _ _ _ hpos hi, r.buf_length]

/-! ## Sending it to a client -/

/-- How far the replay to one client has come. -/
structure ReplayState where
  head : Nat
  remaining : Nat
deriving DecidableEq, Repr

/-- What one `drain` left: the cursor, its verdict, the bytes the client's socket took, the answers still to come. -/
structure DrainOut where
  rs : ReplayState
  ok : Bool
  sent : List Byte
  rest : List WriteRet

namespace ReplayState

def drain (sb : Scrollback) (rs : ReplayState) : List WriteRet → DrainOut
  | [] => ⟨rs, true, [], []⟩
  | w :: ws =>
    if rs.remaining > 0 then
      let cont := scrollbackSize - rs.head
      let n := min cont rs.remaining
      match w.ret n with
      | .error .eintr => drain sb rs ws
      | .error .eagain => ⟨rs, true, [], ws⟩
      | .error (.other _) => ⟨rs, false, [], ws⟩
      | .ok ret =>
        let o := drain sb ⟨(rs.head + ret) &&& (scrollbackSize - 1), rs.remaining - ret⟩ ws
        { o with sent := (sb.buf.drop rs.head).take ret ++ o.sent }
    else ⟨rs, true, [], w :: ws⟩

/-- **What a drain sends and where it leaves the cursor**: a piece of the pending window from its start, the cursor at
the first byte not sent; a drain that gives up leaves something pending. -/
theorem drain_spec (r : Ring) : ∀ (ws : List WriteRet) (rs : ReplayState), rs.head < scrollbackSize →
    (drain r.toScrollback rs ws).sent.length ≤ rs.remaining ∧
    (drain r.toScrollback rs ws).sent = Cyclic.window r.buf rs.head (drain r.toScrollback rs ws).sent.length ∧
    (drain r.toScrollback rs ws).rs = ⟨(rs.head + (drain r.toScrollback rs ws).sent.length) % scrollbackSize,
      rs.remaining - (drain r.toScrollback rs ws).sent.length⟩ ∧
    ((drain r.toScrollback rs ws).ok = false → 0 < (drain r.toScrollback rs ws).rs.remaining)
  | [], rs, h => by simp [drain, Nat.mod_eq_of_lt h]
  | w :: ws, rs, h => by
    have hstay : rs.head % scrollbackSize = rs.head := Nat.mod_eq_of_lt h
    unfold drain
    by_cases hrem : rs.remaining > 0
    · simp only [if_pos hrem]
      cases hret : w.ret (min (scrollbackSize - rs.head) rs.remaining) with
      | error e =>
        cases e with
        | eintr => exact drain_spec r ws rs h
        | eagain => simp [hstay]
        | other n => simp [hstay, hrem]
      | ok ret =>
        have hle := WriteRet.ret_le hret
        have hslice : (r.buf.drop rs.head).take ret = Cyclic.window r.buf rs.head ret :=
          (Cyclic.window_eq_slice _ _ _ (by rw [r.buf_length]; omega)).symm
        have hlt : (rs.head + ret) % scrollbackSize < scrollbackSize := Nat.mod_lt _ scrollbackSize_pos
        dsimp only
        rw [land_mask, hslice]
        obtain ⟨h1, h2, h3, h4⟩ := drain_spec r ws ⟨(rs.head + ret) % scrollbackSize, rs.remaining - ret⟩ hlt
        generalize drain r.toScrollback ⟨(rs.head + ret) % scrollbackSize, rs.remaining - ret⟩ ws = o at h1 h2 h3 h4
        simp only [List.length_append, Cyclic.length_window] at h1 ⊢
        refine ⟨by omega, ?_, ?_, h4⟩
        · rw [Cyclic.window_add]
          congr 1
          conv => lhs; rw [h2]
          exact Cyclic.window_of_mod_eq _ (by rw [r.buf_length, Nat.mod_mod])
        · rw [h3, Nat.mod_add_mod, Nat.add_assoc, Nat.sub_sub]
    · simp [if_neg hrem, hstay]

/-- **What a drain sends and what it leaves pending** make up what was pending. -/
theorem drain_window (r : Ring) (ws : List WriteRet) (rs : ReplayState) (h : rs.head < scrollbackSize) :
    (drain r.toScrollback rs ws).sent ++
        Cyclic.window r.buf (drain r.toScrollback rs ws).rs.head (drain r.toScrollback rs ws).rs.remaining =
      Cyclic.window r.buf rs.head rs.remaining := by
  obtain ⟨h1, h2, h3, -⟩ := drain_spec r ws rs h
  generalize drain r.toScrollback rs ws = o at h1 h2 h3
  have hsplit : rs.remaining = o.sent.length + (rs.remaining - o.sent.length) := by omega
  rw [h3]
  conv => rhs; rw [hsplit, Cyclic.window_add]
  rw [← h2]
  congr 1
  exact Cyclic.window_of_mod_eq _ (by rw [r.buf_length, Nat.mod_mod])

theorem drain_ok (r : Ring) (ws : List WriteRet) (rs : ReplayState) (h : rs.head < scrollbackSize)
    (hzero : (drain r.toScrollback rs ws).rs.remaining = 0) : (drain r.toScrollback rs ws).ok = true := by
  by_contra hne
  have := (drain_spec r ws rs h).2.2.2 (Bool.eq_false_iff.2 hne)
  omega

/-- What writes take, each of them asked to take what is pending up to the end of the buffer. -/
def accepted : Nat → Nat → List WriteRet → Nat
  | _, _, [] => 0
  | head, remaining, w :: ws =>
    match w.ret (min (scrollbackSize - head) remaining) with
    | .ok ret => ret + accepted ((head + ret) % scrollbackSize) (remaining - ret) ws
    | .error _ => accepted head remaining ws

/-- **How a drain ends**: it is done with what its writes have taken, gives up on the hard error it met, and stops early only on
an `EAGAIN` or past the last answer. -/
theorem drain_ends (sb : Scrollback) : ∀ (ws : List WriteRet) (rs : ReplayState), ∃ used, ws = used ++ (drain sb rs ws).rest ∧
    (drain sb rs ws).rs.remaining + accepted rs.head rs.remaining used = rs.remaining ∧
    ((drain sb rs ws).ok = false ↔ ∃ e, used.getLast? = some (.fail (.other e))) ∧
    ((drain sb rs ws).ok = true → 0 < (drain sb rs ws).rs.remaining →
      used.getLast? = some (.fail .eagain) ∨ (drain sb rs ws).rest = [])
  | [], rs => ⟨[], by simp [drain, accepted]⟩
  | w :: ws, rs => by
    unfold drain
    by_cases hrem : rs.remaining > 0
    · simp only [if_pos hrem]
      cases hret : w.ret (min (scrollbackSize - rs.head) rs.remaining) with
      | error e =>
        obtain rfl : w = .fail e := WriteRet.ret_error hret
        cases e with
        | eintr =>
          obtain ⟨used, h1, hsum, h2, h3⟩ := drain_ends sb ws rs
          refine ⟨.fail .eintr :: used, congrArg _ h1, hsum, h2.trans (exists_congr fun e => ?_), fun hok hleft => ?_⟩
          · cases used <;> simp [List.getLast?_cons]
          · refine (h3 hok hleft).imp_left fun hlast => ?_
            rw [List.getLast?_cons, hlast, Option.getD_some]
        | eagain => exact ⟨[.fail .eagain], by simp [accepted, WriteRet.ret]⟩
        | other n => exact ⟨[.fail (.other n)], by simp [accepted, WriteRet.ret]⟩
      | ok ret =>
        obtain ⟨used, h1, hsum, h2, h3⟩ :=
          drain_ends sb ws ⟨(rs.head + ret) &&& (scrollbackSize - 1), rs.remaining - ret⟩
        have hle := WriteRet.ret_le hret
        have htook : accepted rs.head rs.remaining (w :: used) =
            ret + accepted ((rs.head + ret) % scrollbackSize) (rs.remaining - ret) used := by
          rw [accepted, hret]
        obtain ⟨n, rfl⟩ := WriteRet.ret_ok hret
        refine ⟨.room n :: used, congrArg _ h1, ?_, h2.trans (exists_congr fun e => ?_), fun hok hleft => ?_⟩
        · simp only [land_mask] at hsum ⊢
          rw [htook]
          omega
        · cases used <;> simp [List.getLast?_cons]
        · refine (h3 hok hleft).imp_left fun hlast => ?_
          rw [List.getLast?_cons, hlast, Option.getD_some]
    · exact ⟨[], by simp [hrem, accepted]⟩

/-- **One drain of a ring**, on a descriptor that answers `ws` and then `EAGAIN`: the first `k` bytes of the pending
window, in order across the wrap, `k` being what the writes that it made have taken, the cursor at the first byte not sent,
where the next drain goes on; `false` exactly when it ended on a hard error, `true` with something pending only when it ended
on `EAGAIN`. -/
theorem drain_sends_first (r : Ring) (rs : ReplayState) (h : rs.head < scrollbackSize) (ws : List WriteRet) :
    ∃ o k, drain r.toScrollback rs (ws ++ [.fail .eagain]) = o ∧ o.sent.length = k ∧ k ≤ rs.remaining ∧
      (∀ i, i < k → o.sent[i]? = r.buf[(rs.head + i) % scrollbackSize]?) ∧
      o.rs = ⟨(rs.head + k) % scrollbackSize, rs.remaining - k⟩ ∧
      (∀ ws' i, i < (drain r.toScrollback o.rs ws').sent.length →
        (drain r.toScrollback o.rs ws').sent[i]? = r.buf[(rs.head + (k + i)) % scrollbackSize]?) ∧
      ∃ used, ws ++ [.fail .eagain] = used ++ o.rest ∧ k = accepted rs.head rs.remaining used ∧
        (o.ok = false ↔ ∃ e, used.getLast? = some (.fail (.other e))) ∧
        (o.ok = true → 0 < o.rs.remaining → used.getLast? = some (.fail .eagain)) := by
  have hpos : 0 < r.buf.length := by rw [r.buf_length]; exact scrollbackSize_pos
  have hbytes : ∀ (ws : List WriteRet) (rs : ReplayState), rs.head < scrollbackSize → ∀ i,
      i < (drain r.toScrollback rs ws).sent.length →
        (drain r.toScrollback rs ws).sent[i]? = r.buf[(rs.head + i) % scrollbackSize]? := by
    intro ws rs h i hi
    rw [(drain_spec r ws rs h).2.1, Cyclic.getElem?_window _ _ _ _ hpos hi, r.buf_length]
  obtain ⟨hk, -, hrs, -⟩ := drain_spec r (ws ++ [.fail .eagain]) rs h
  have hsent := hbytes (ws ++ [.fail .eagain]) rs h
  obtain ⟨used, hused, hsum, hfalse, htrue⟩ := drain_ends r.toScrollback (ws ++ [.fail .eagain]) rs
  generalize drain r.toScrollback rs (ws ++ [.fail .eagain]) = o at hk hrs hsent hused hsum hfalse htrue
  have htook : o.sent.length = accepted rs.head rs.remaining used := by
    rw [hrs] at hsum
    simp only at hsum
    omega
  refine ⟨o, o.sent.length, rfl, rfl, hk, hsent, hrs, fun ws' i hi => ?_, used, hused, htook, hfalse, fun hok hleft => ?_⟩
  · have hhead : o.rs.head = (rs.head + o.sent.length) % scrollbackSize := by rw [hrs]
    have hlt : o.rs.head < scrollbackSize := by rw [hhead]; exact Nat.mod_lt _ scrollbackSize_pos
    rw [hbytes ws' o.rs hlt i hi, hhead, Nat.mod_add_mod, Nat.add_assoc]
  · rcases htrue hok hleft with hlast | hnil
    · exact hlast
    · rw [hnil, List.append_nil] at hused
      rw [← hused, List.getLast?_concat]

/-- From the last byte of the buffer on, two bytes pending, of which the descriptor takes one. -/
theorem drain_sends_first_wrap :
    ∃ o, drain Ring.new.toScrollback ⟨scrollbackSize - 1, 2⟩ ([.fail .eintr, .room 1] ++ [.fail .eagain]) = o ∧
      o.sent.length ≤ 2 ∧ o.rs = ⟨(scrollbackSize - 1 + o.sent.length) % scrollbackSize, 2 - o.sent.length⟩ ∧
      ∃ used, [.fail .eintr, .room 1] ++ [.fail .eagain] = used ++ o.rest ∧
        o.sent.length = accepted (scrollbackSize - 1) 2 used := by
  obtain ⟨o, k, ho, rfl, hle, -, hrs, -, used, hused, htook, -⟩ :=
    drain_sends_first Ring.new ⟨scrollbackSize - 1, 2⟩ (by decide) [.fail .eintr, .room 1]
  exact ⟨o, ho, hle, hrs, used, hused, htook⟩

/-- `drain` with what its pointer arithmetic takes for granted: the cursor inside the ring, the bytes written inside `buf`,
and no more written than was pending; `none` where one of them fails. -/
def drainChecked (sb : Scrollback) (rs : ReplayState) : List WriteRet → Option DrainOut
  | [] => some ⟨rs, true, [], []⟩
  | w :: ws =>
    if rs.remaining > 0 then
      let cont := scrollbackSize - rs.head
      let n := min cont rs.remaining
      if rs.head ≤ scrollbackSize ∧ rs.head + n ≤ sb.buf.length then
        match w.ret n with
        | .error .eintr => drainChecked sb rs ws
        | .error .eagain => some ⟨rs, true, [], ws⟩
        | .error (.other _) => some ⟨rs, false, [], ws⟩
        | .ok ret =>
          if ret ≤ rs.remaining then
            (drainChecked sb ⟨(rs.head + ret) &&& (scrollbackSize - 1), rs.remaining - ret⟩ ws).map
              (fun o => { o with sent := (sb.buf.drop rs.head).take ret ++ o.sent })
          else none
      else none
    else some ⟨rs, true, [], w :: ws⟩

/-- **From a cursor inside the ring a drain reads only the ring and never underflows.** -/
theorem drainChecked_eq (r : Ring) : ∀ (ws : List WriteRet) (rs : ReplayState), rs.head < scrollbackSize →
    drainChecked r.toScrollback rs ws = some (drain r.toScrollback rs ws)
  | [], _, _ => rfl
  | w :: ws, rs, h => by
    unfold drainChecked drain
    by_cases hrem : rs.remaining > 0
    · have hin : rs.head ≤ scrollbackSize ∧
          rs.head + min (scrollbackSize - rs.head) rs.remaining ≤ r.buf.length := by
        rw [r.buf_length]
        omega
      simp only [if_pos hrem, if_pos hin]
      cases hret : w.ret (min (scrollbackSize - rs.head) rs.remaining) with
      | error e =>
        cases e with
        | eintr => exact drainChecked_eq r ws rs h
        | eagain | other n => rfl
      | ok ret =>
        have hle : ret ≤ rs.remaining := Nat.le_trans (WriteRet.ret_le hret) (Nat.min_le_right _ _)
        have hlt : (rs.head + ret) &&& (scrollbackSize - 1) < scrollbackSize := by
          rw [land_mask]
          exact Nat.mod_lt _ scrollbackSize_pos
        dsimp only
        rw [if_pos hle, drainChecked_eq r ws ⟨(rs.head + ret) &&& (scrollbackSize - 1), rs.remaining - ret⟩ hlt]
        rfl
    · rw [if_neg hrem, if_neg hrem]

end ReplayState

end Zatch
