import Zatch.Conversation
import Zatch.Lib.Lines
import Zatch.Names
/-!
# Info — what `info` prints of a session (`handle_info`, `Session::cmd_info`)

The daemon answers an `Info` packet in lines, one `write_buf` a line, and `cmd_info` puts together what it reads until the
daemon closes the connection.  Any of the lines can be cut short on the way, yet what reads as an answer is one: it is cut
nowhere, and says which clients were attached (`info_is_true`).
-/
namespace Zatch

open Machine (run Along)
open Lines (IsLine cut_lines cut_beginning)

/-! ## Bytes and characters -/

theorem toList_loop (bs : ByteArray) (i : Nat) (r : List UInt8) :
    ByteArray.toList.loop bs i r = r.reverse ++ bs.data.toList.drop i := by
  induction i, r using ByteArray.toList.loop.induct bs with
  | case1 i r h ih =>
    rw [ByteArray.toList.loop, if_pos h, ih]
    have hi : i < bs.data.toList.length := h
    have hget : bs.get! i = bs.data.toList[i] := by
      show bs.data[i]! = _
      rw [getElem!_pos bs.data i h, Array.getElem_toList]
    rw [List.drop_eq_getElem_cons hi, hget, List.reverse_cons, List.append_assoc]
    rfl
  | case2 i r h =>
    rw [ByteArray.toList.loop, if_neg h, List.drop_eq_nil_of_le (by simpa using h)]
    simp

theorem bytesOf_eq (s : String) : bytesOf s = utf8 s.toList := by
  unfold bytesOf ByteArray.toList
  rw [toList_loop]
  simp [String.toUTF8, ← String.utf8Encode_toList, List.utf8Encode, utf8]

theorem utf8_append (s t : Str) : utf8 (s ++ t) = utf8 s ++ utf8 t := List.flatMap_append

/-- How many bytes are to follow the first one of a character, and the bounds of the first of them. -/
def utf8Lead (b : Byte) : Option (Nat × Nat × Nat) :=
  let n := b.toNat
  if 0xC2 ≤ n ∧ n ≤ 0xDF then some (1, 0x80, 0xBF)
  else if n = 0xE0 then some (2, 0xA0, 0xBF)
  else if n = 0xED then some (2, 0x80, 0x9F)
  else if 0xE1 ≤ n ∧ n ≤ 0xEF then some (2, 0x80, 0xBF)
  else if n = 0xF0 then some (3, 0x90, 0xBF)
  else if 0xF1 ≤ n ∧ n ≤ 0xF3 then some (3, 0x80, 0xBF)
  else if n = 0xF4 then some (3, 0x80, 0x8F)
  else none

def contLength (lo hi : Nat) : Nat → List Byte → Nat
  | k + 1, b :: bs => if lo ≤ b.toNat ∧ b.toNat ≤ hi then contLength 0x80 0xBF k bs + 1 else 0
  | _, _ => 0

/-- The first character, and how many bytes after its first one it takes: a beginning of none is the replacement character. -/
def lossyFirst (b : Byte) (bs : List Byte) : Char × Nat :=
  if b.toNat < 0x80 then (Char.ofNat b.toNat, 0)
  else
    match utf8Lead b with
    | none => (Char.ofNat 0xFFFD, 0)
    | some (more, lo, hi) =>
      if contLength lo hi more bs = more then
        (Char.ofNat ((bs.take more).foldl (fun n c => n * 64 + c.toNat % 64) (b.toNat % 2 ^ (6 - more))), more)
      else (Char.ofNat 0xFFFD, contLength lo hi more bs)

def lossyLoop : Nat → List Byte → Str
  | fuel + 1, b :: bs => (lossyFirst b bs).1 :: lossyLoop fuel (bs.drop (lossyFirst b bs).2)
  | _, _ => []

/-- `String::from_utf8_lossy`. -/
def fromUtf8Lossy (bs : List Byte) : Str := lossyLoop bs.length bs

example : fromUtf8Lossy [0x61, 0xC3, 0xA9, 0xE2, 0x82, 0x62, 0xFF] = "aé\uFFFDb\uFFFD".toList := by decide +kernel

/-- A text of one byte a character. -/
def Ascii (s : Str) : Prop := ∀ c ∈ s, c.toNat < 128

instance (s : Str) : Decidable (Ascii s) :=
  @decidable_of_iff _ (s.all (fun c => Nat.blt c.toNat 128) = true) (by simp [Ascii]) (instDecidableEqBool _ _)

theorem Ascii.append {s t : Str} (hs : Ascii s) (ht : Ascii t) : Ascii (s ++ t) :=
  fun c hc => (List.mem_append.1 hc).elim (hs c) (ht c)

theorem Ascii.beginning {s t : Str} (ht : Ascii t) (h : s <+: t) : Ascii s := fun c hc => ht c (h.subset hc)

theorem utf8EncodeChar_of_lt {c : Char} (h : c.toNat < 128) : String.utf8EncodeChar c = [UInt8.ofNat c.toNat] := by
  unfold String.utf8EncodeChar
  have hval : c.val.toNat ≤ 0x7f := Nat.lt_succ_iff.1 h
  simp only [hval, if_true]
  rfl

theorem utf8_of_ascii {s : Str} (h : Ascii s) : utf8 s = s.map (fun c => UInt8.ofNat c.toNat) := by
  induction s with
  | nil => rfl
  | cons c s ih =>
    have hc := utf8EncodeChar_of_lt (h c List.mem_cons_self)
    rw [utf8, List.flatMap_cons, hc, List.map_cons]
    exact congrArg _ (ih (fun x hx => h x (List.mem_cons_of_mem _ hx)))

/-- Bytes that an ASCII text begins with are the bytes of what it begins with. -/
theorem take_utf8 {s : Str} (h : Ascii s) (n : Nat) : (utf8 s).take n = utf8 (s.take n) := by
  rw [utf8_of_ascii h, utf8_of_ascii (h.beginning (List.take_prefix n s)), List.map_take]

theorem drop_utf8 {s : Str} (h : Ascii s) (n : Nat) : (utf8 s).drop n = utf8 (s.drop n) := by
  rw [utf8_of_ascii h, utf8_of_ascii (fun c hc => h c (List.mem_of_mem_drop hc)), List.map_drop]

theorem prefix_utf8 {bs : List Byte} {s : Str} (hs : Ascii s) (h : bs <+: utf8 s) : ∃ t, t <+: s ∧ bs = utf8 t := by
  refine ⟨s.take bs.length, List.take_prefix _ _, ?_⟩
  rw [← take_utf8 hs, ← List.prefix_iff_eq_take]
  exact h

theorem lossyLoop_utf8 : ∀ {s : Str}, Ascii s → lossyLoop s.length (utf8 s) = s
  | [], _ => rfl
  | c :: s, h => by
    have hc := h c List.mem_cons_self
    have hs := lossyLoop_utf8 (fun x hx => h x (List.mem_cons_of_mem _ hx))
    have hbyte : (UInt8.ofNat c.toNat).toNat = c.toNat := by
      rw [UInt8.toNat_ofNat', Nat.mod_eq_of_lt (by omega)]
    have hfirst : ∀ bs, lossyFirst (UInt8.ofNat c.toNat) bs = (c, 0) := by
      intro bs
      rw [lossyFirst, hbyte, if_pos hc, Char.ofNat_toNat]
    have hcons : utf8 (c :: s) = UInt8.ofNat c.toNat :: utf8 s := by
      rw [utf8, List.flatMap_cons, utf8EncodeChar_of_lt hc]
      rfl
    rw [hcons, List.length_cons, lossyLoop, hfirst, List.drop_zero, hs]

theorem fromUtf8Lossy_utf8 {s : Str} (h : Ascii s) : fromUtf8Lossy (utf8 s) = s := by
  have hlen : (utf8 s).length = s.length := by rw [utf8_of_ascii h, List.length_map]
  rw [fromUtf8Lossy, hlen, lossyLoop_utf8 h]

/-! ## The answer -/

/-- The lines of the answer to an `Info` packet, for the clients with these processes. -/
def infoHeader (count : Nat) : Str := "attached: ".toList ++ (toString count).toList ++ ['\n']

def infoLine (pid : Nat) : Str := "pid: ".toList ++ (toString pid).toList ++ ['\n']

def infoParts (pids : List Nat) : List Str := infoHeader pids.length :: pids.map infoLine

def infoReply (pids : List Nat) : Str := (infoParts pids).flatten

def SessionDaemon.attachedPids (d : SessionDaemon) : List Nat := (d.clients.filter (·.attached)).map (·.peerPid)

theorem SessionDaemon.handleInfo_eq (d : SessionDaemon) (f : RawFd) (ws : List WriteRet) :
    d.handleInfo f ws = ⟨d, tell f ((infoParts d.attachedPids).map utf8) ws, false⟩ := by
  have hheader : ∀ n : Nat, bytesOf ("attached: " ++ toString n ++ "\n") = utf8 (infoHeader n) := by
    intro n
    rw [bytesOf_eq, String.toList_append, String.toList_append]
    rfl
  have hline : ∀ n : Nat, bytesOf ("pid: " ++ toString n ++ "\n") = utf8 (infoLine n) := by
    intro n
    rw [bytesOf_eq, String.toList_append, String.toList_append]
    rfl
  simp only [handleInfo, hheader, hline, infoParts, attachedPids, List.map_cons, List.map_map, List.length_map]
  rfl

theorem toList_toString (n : Nat) : (toString n).toList = Nat.toDigits 10 n := by
  rw [Nat.toString_eq_ofList_toDigits, String.toList_ofList]

theorem isDigit_of_mem {c : Char} {n : Nat} (h : c ∈ (toString n).toList) : c.isDigit = true := by
  rw [toList_toString] at h
  exact Nat.isDigit_of_mem_toDigits (by decide) (by decide) h

theorem not_mem_digits {c : Char} (hc : c.isDigit = false) (n : Nat) : c ∉ (toString n).toList := by
  intro h
  rw [isDigit_of_mem h] at hc
  cases hc

theorem digits_injective {m n : Nat} (h : (toString m).toList = (toString n).toList) : m = n := by
  rw [toList_toString, toList_toString] at h
  rw [← Nat.ofDigitChars_ten_toDigits (n := m), h, Nat.ofDigitChars_ten_toDigits]

theorem ascii_digits (n : Nat) : Ascii (toString n).toList := by
  intro c hc
  have hdigit := isDigit_of_mem hc
  simp only [Char.isDigit, Bool.and_eq_true, decide_eq_true_eq] at hdigit
  have hle : c.val.toNat ≤ 57 := hdigit.2
  show c.val.toNat < 128
  omega

theorem ascii_infoParts (pids : List Nat) : ∀ l ∈ infoParts pids, Ascii l := by
  have hfixed : ∀ n (s : Str), Ascii s → Ascii (s ++ (toString n).toList ++ ['\n']) :=
    fun n s hs => (hs.append (ascii_digits n)).append (by decide)
  intro l hl
  rcases List.mem_cons.1 hl with rfl | hl
  · exact hfixed _ _ (by decide)
  · obtain ⟨pid, -, rfl⟩ := List.mem_map.1 hl
    exact hfixed _ _ (by decide)

theorem isLine_infoHeader (n : Nat) : IsLine '\n' (infoHeader n) := by
  refine ⟨_, rfl, fun h => ?_⟩
  rcases List.mem_append.1 h with h | h
  · revert h
    decide
  · exact not_mem_digits rfl n h

theorem isLine_infoLine (n : Nat) : IsLine '\n' (infoLine n) := by
  refine ⟨_, rfl, fun h => ?_⟩
  rcases List.mem_append.1 h with h | h
  · revert h
    decide
  · exact not_mem_digits rfl n h

theorem infoHeader_injective {m n : Nat} (h : infoHeader m = infoHeader n) : m = n :=
  digits_injective (List.append_cancel_left (List.append_cancel_right h))

theorem infoLine_injective : Function.Injective infoLine :=
  fun _ _ h => digits_injective (List.append_cancel_left (List.append_cancel_right h))

/-- What is left of the lines after the header begins as they do. -/
theorem cut_infoLines : ∀ {cuts : List Str} {pids : List Nat}, List.Forall₂ (· <+: ·) cuts (pids.map infoLine) →
    cuts.flatten = [] ∨ ∃ rest, cuts.flatten = 'p' :: rest
  | [], _, _ => .inl rfl
  | c :: cuts, [], h => by cases h
  | c :: cuts, pid :: pids, h => by
    obtain ⟨hc, hcuts⟩ := List.forall₂_cons.1 h
    cases c with
    | nil =>
      have ih := cut_infoLines hcuts
      exact ih
    | cons x c =>
      obtain ⟨rest, hrest⟩ := hc
      obtain rfl : x = 'p' := (List.cons.inj hrest).1
      exact .inr ⟨_, rfl⟩

theorem p_not_mem_infoHeader (n : Nat) : 'p' ∉ infoHeader n := by
  intro h
  rcases List.mem_append.1 h with h | h
  · rcases List.mem_append.1 h with h | h
    · revert h
      decide
    · exact not_mem_digits rfl n h
  · revert h
    decide

/-- **An answer cut in any of its lines that reads as an answer** is the one that was given. -/
theorem infoReply_of_cut {cuts : List Str} {pids pids' : List Nat} (hcut : List.Forall₂ (· <+: ·) cuts (infoParts pids))
    (h : cuts.flatten = infoReply pids') : pids = pids' := by
  have hlines : ∀ ps : List Nat, ∀ l ∈ ps.map infoLine, IsLine '\n' l := by
    intro ps l hl
    obtain ⟨pid, -, rfl⟩ := List.mem_map.1 hl
    exact isLine_infoLine pid
  obtain ⟨c, cs, hc, hcs, rfl⟩ := List.forall₂_cons_right_iff.1 hcut
  rw [infoReply, infoParts, List.flatten_cons, List.flatten_cons] at h
  rcases (isLine_infoHeader _).prefix_cases hc with rfl | hnot
  · obtain ⟨hhead, hrest⟩ := (isLine_infoHeader _).append_inj (isLine_infoHeader _) h
    have hlen := infoHeader_injective hhead
    have hmap := cut_lines hcs (hlines pids) (hlines pids') (by rw [List.length_map, List.length_map]; exact hlen) hrest
    exact List.map_injective_iff.2 infoLine_injective hmap
  · -- after a header that is cut there comes the first letter of a line, which no header has
    have hend : '\n' ∈ infoHeader pids'.length := List.mem_append_right _ (List.mem_singleton_self _)
    obtain ⟨more, hmore⟩ : c <+: infoHeader pids'.length := by
      have hc' : c <+: infoHeader pids'.length ++ (pids'.map infoLine).flatten := ⟨_, h⟩
      rcases List.prefix_or_prefix_of_prefix hc' (List.prefix_append _ _) with hpre | hpre
      · exact hpre
      · exact absurd (hpre.subset hend) hnot
    rw [← hmore, List.append_assoc] at h
    have htail := List.append_cancel_left h
    cases more with
    | nil => exact absurd (by rw [← List.append_nil c, hmore]; exact hend) hnot
    | cons x more =>
      rcases cut_infoLines hcs with hnil | ⟨rest, hp⟩
      · rw [hnil] at htail
        cases htail
      · rw [hp] at htail
        obtain rfl := (List.cons.inj htail).1
        exact absurd (by rw [← hmore]; exact List.mem_append_right _ List.mem_cons_self) (p_not_mem_infoHeader pids'.length)

/-! ## Writing it -/

theorem writeBuf_begins : ∀ (ws : List WriteRet) (buf : List Byte), (writeBuf buf ws).1 <+: buf
  | [], buf => List.nil_prefix
  | w :: ws, buf => by
    rw [writeBuf]
    split
    · exact List.nil_prefix
    · split
      · rename_i n hn
        have ih := writeBuf_begins ws (buf.drop n)
        conv => rhs; rw [← List.take_append_drop n buf]
        exact (List.prefix_append_right_inj _).2 ih
      · exact writeBuf_begins ws buf
      · exact List.nil_prefix

theorem sentTo_cons (f : RawFd) (e : Effect) (fx : List Effect) :
    sentTo f (e :: fx) = e.replayOf f ++ e.liveOf f ++ e.toldOf f ++ sentTo f fx := rfl

theorem sentTo_told (f : RawFd) (bs : List Byte) (fx : List Effect) : sentTo f (.told f bs :: fx) = bs ++ sentTo f fx := by
  rw [sentTo_cons, Effect.toldOf, if_pos rfl]
  rfl

namespace SessionDaemon

/-- What is written of some lines is the lines, each of them cut somewhere or nowhere. -/
theorem tell_cut (f : RawFd) : ∀ (lines : List Str) (ws : List WriteRet), (∀ l ∈ lines, Ascii l) →
    ∃ cuts : List Str, List.Forall₂ (· <+: ·) cuts lines ∧ sentTo f (tell f (lines.map utf8) ws) = utf8 cuts.flatten
  | [], _, _ => ⟨[], .nil, rfl⟩
  | l :: lines, ws, h => by
    obtain ⟨cut, hcut, hbytes⟩ := prefix_utf8 (h l List.mem_cons_self) (writeBuf_begins ws (utf8 l))
    obtain ⟨cuts, hcuts, hrest⟩ := tell_cut f lines (writeBuf (utf8 l) ws).2 (fun x hx => h x (List.mem_cons_of_mem _ hx))
    refine ⟨cut :: cuts, .cons hcut hcuts, ?_⟩
    rw [List.map_cons, tell, sentTo_told, hbytes, hrest, List.flatten_cons, utf8_append]

/-- Each line is taken in one write. -/
def TakesLines (ws : List WriteRet) (lines : List Str) : Prop := List.Forall₂ (fun w l => InFull w (utf8 l).length) ws lines

theorem writeBuf_nil (ws : List WriteRet) : writeBuf [] ws = ([], ws) := by
  cases ws with
  | nil => rfl
  | cons w ws => rw [writeBuf, if_pos rfl]

theorem utf8_ne_nil {s : Str} (h : s ≠ []) : utf8 s ≠ [] := by
  cases s with
  | nil => exact absurd rfl h
  | cons c s =>
    intro hnil
    have hchar := (List.append_eq_nil_iff.1 hnil).1
    have hlen := String.length_utf8EncodeChar c
    rw [hchar] at hlen
    have hpos := Char.utf8Size_pos c
    simp only [List.length_nil] at hlen
    omega

/-- Lines that are taken are written whole. -/
theorem tell_whole (f : RawFd) : ∀ (lines : List Str) (ws : List WriteRet), (∀ l ∈ lines, l ≠ []) → TakesLines ws lines →
    sentTo f (tell f (lines.map utf8) ws) = utf8 lines.flatten
  | [], _, _, _ => rfl
  | l :: lines, ws, hne, h => by
    obtain ⟨w, ws', ⟨n, rfl, hn⟩, hws, rfl⟩ := List.forall₂_cons_right_iff.1 h
    have hone : writeBuf (utf8 l) (.room n :: ws') = (utf8 l, ws') := by
      rw [writeBuf, if_neg (utf8_ne_nil (hne l List.mem_cons_self)), WriteRet.ret, Nat.min_eq_right hn]
      simp only [List.drop_length, List.take_length, writeBuf_nil, List.append_nil]
    rw [List.map_cons, tell, hone, sentTo_told, tell_whole f lines ws' (fun x hx => hne x (List.mem_cons_of_mem _ hx)) hws,
      List.flatten_cons, utf8_append]

end SessionDaemon

theorem infoParts_ne_nil (pids : List Nat) : ∀ l ∈ infoParts pids, l ≠ [] := by
  intro l hl
  rcases List.mem_cons.1 hl with rfl | hl
  · exact List.append_ne_nil_of_right_ne_nil _ (List.cons_ne_nil _ _)
  · obtain ⟨pid, -, rfl⟩ := List.mem_map.1 hl
    exact List.append_ne_nil_of_right_ne_nil _ (List.cons_ne_nil _ _)

/-! ## Asking -/

/-- A session's daemon, and `cmd_info` on a connection to it, its packet written. -/
structure Query where
  d : SessionDaemon
  link : Link
  /-- what the daemon has not read of the packet -/
  up : List Byte
  /-- the clients attached when the daemon read the packet -/
  about : Option (List Nat)
  /-- what the daemon has written and `cmd_info` has not read -/
  down : List Byte
  /-- what `cmd_info` has put together -/
  out : Str
  /-- whether it has ended its loop -/
  ended : Bool

/-- A step: the daemon accepts the connection, reads from it, or does anything else; the daemon is gone; `cmd_info` reads. -/
inductive Asking
  | accept (r : AcceptRet) (took : Nat)
  | hears (i : Nat) (p : SessionDaemon.PacketAns)
  | daemon (a : SessionDaemon.Act)
  | quits
  | reads (r : ReadRet)

namespace Query

open SessionDaemon (act Quiet)

def begin (d : SessionDaemon) : Query := ⟨d, .queued, (Packet.new .info).bytes, none, [], [], false⟩

/-- The daemon after a step of its own, with the connection on this descriptor. -/
def after (f : RawFd) (o : SessionDaemon × List Effect) (s : Query) : Query :=
  { s with
    d := o.1
    link := if Effect.closed f ∈ o.2 then .cut else .on f
    down := s.down ++ sentTo f o.2 }

def heardOn (s : Query) (i : Nat) : Option RawFd :=
  match s.link, s.d.clients[i]? with
  | .on f, some x => if x.fd = f then some f else none
  | _, _ => none

def hearing (s : Query) : SessionDaemon.Act → Bool
  | .packet i _ => (s.heardOn i).isSome
  | _ => false

/-- A turn of the loop of `cmd_info`; with nothing to read and the connection there, `read` does not return. -/
def reading (s : Query) : ReadRet → Query
  | .fail .eintr => s
  | .fail _ => { s with ended := true }
  | .closed => if s.down = [] ∧ s.link = .cut then { s with ended := true } else s
  | .avail n =>
    { s with
      down := s.down.drop (min n bufsize)
      out := s.out ++ fromUtf8Lossy (s.down.take (min n bufsize)) }

def step (s : Query) : Asking → Query × List Effect
  | .accept r took =>
    match s.link with
    | .queued =>
      let o := s.d.act (.accept r took)
      match r with
      | .conn f true _ => ({ s with d := o.1, link := .on f }, o.2)
      | .conn _ false _ => ({ s with d := o.1, link := .cut }, o.2)
      | .fail _ => ({ s with d := o.1 }, o.2)
    | _ => (s, [])
  | .hears i p =>
    match s.heardOn i with
    | some f =>
      let read := Packet.readFrom s.up p.reads
      let o := s.d.act (.packet i { p with inp := s.up })
      (after f o { s with
        up := read.inp
        about := if packetOf read.res = [] then s.about else some s.d.attachedPids }, o.2)
    | none => (s, [])
  | .daemon a =>
    if s.hearing a then (s, [])
    else
      let o := s.d.act a
      match s.link with
      | .on f => (s.after f o, o.2)
      | _ => ({ s with d := o.1 }, o.2)
  | .quits => ({ s with link := .cut }, [])
  | .reads r => (if s.ended then s else s.reading r, [])

/-- What `cmd_info` prints at its end. -/
def prints (s : Query) (progname name : Str) : Option Str :=
  if s.ended then some (progname ++ ": '".toList ++ name ++ "': ".toList ++ s.out) else none

def Possible (s : Query) : Asking → Prop
  | .accept r took => s.d.Possible (.accept r took)
  | .daemon a => s.d.Possible a
  | _ => True

instance (s : Query) (ev : Asking) : Decidable (Possible s ev) :=
  match ev with
  | .accept r took => inferInstanceAs (Decidable (s.d.Possible (.accept r took)))
  | .daemon a => inferInstanceAs (Decidable (s.d.Possible a))
  | .hears _ _ | .quits | .reads _ => isTrue trivial

/-- The connection takes the lines of the answer, and reading from it does not fail. -/
def Carries (s : Query) : Asking → Prop
  | .hears _ p => SessionDaemon.TakesLines p.writes (infoParts s.d.attachedPids)
  | .reads r => ∀ e, r = .fail e → e = .eintr
  | _ => True

/-! ## What comes of it -/

/-- Before the daemon has read the packet nothing has come back and the connection is quiet; since then it is closed, and what
has come are the lines of the answer, each of them cut somewhere or nowhere. -/
structure Answers (whole : Prop) (s : Query) : Prop where
  nodup : (s.d.clients.map (·.fd)).Nodup
  up : s.about = none → s.up <:+ (Packet.new .info).bytes
  waits : s.about = none → s.down = [] ∧ s.out = []
  queued : s.link = .queued → s.about = none
  quiet : ∀ f, s.link = .on f → s.about = none ∧ Quiet f s.d
  told : ∀ pids, s.about = some pids → ∃ (cuts : List Str) (t : Str), List.Forall₂ (· <+: ·) cuts (infoParts pids) ∧
    s.down = utf8 t ∧ s.out ++ t = cuts.flatten ∧ (whole → cuts = infoParts pids)
  read : whole → s.ended = true → s.down = [] ∧ s.link = .cut

theorem heardOn_eq_some {s : Query} {i : Nat} {f : RawFd} (h : s.heardOn i = some f) :
    s.link = .on f ∧ ∃ x, s.d.clients[i]? = some x ∧ x.fd = f :=
  Link.eq_on_of_some h

/-- `cmd_info` goes on while the connection is there. -/
theorem Answers.goes_on {whole : Prop} {s : Query} (h : Answers whole s) (hlink : s.link ≠ .cut) (hwhole : whole) :
    s.ended ≠ true :=
  fun hend => hlink (h.read hwhole hend).2

/-- The only packet there is to read is the one that was sent. -/
theorem eq_info_of_read {up : List Byte} {reads : List ReadRet} {pkt : Packet} (hup : up <:+ (Packet.new .info).bytes)
    (h : (Packet.readFrom up reads).res = .ok pkt) : pkt = Packet.new .info := by
  have hsplit : up = pkt.bytes ++ (Packet.readFrom up reads).inp :=
    Packet.readLoop_ok reads [] up pkt (Nat.zero_le _) h
  have hlen := congrArg List.length hsplit
  rw [List.length_append, pkt.length_bytes] at hlen
  have hle := hup.length_le
  rw [(Packet.new .info).length_bytes] at hle
  have hall : up = (Packet.new .info).bytes := hup.eq_of_length (by rw [(Packet.new .info).length_bytes]; omega)
  have hnil : (Packet.readFrom up reads).inp = [] := List.length_eq_zero_iff.1 (by omega)
  rw [hnil, List.append_nil, hall] at hsplit
  rw [← Packet.ofBytes_bytes pkt, ← hsplit, Packet.ofBytes_bytes]

/-- The daemon answers an `Info` packet and closes the connection. -/
theorem act_info {d : SessionDaemon} {i : Nat} {x : Client} {p : SessionDaemon.PacketAns} (hi : d.clients[i]? = some x)
    (hres : p.res = .ok (Packet.new .info)) : (d.act (.packet i p)).2 =
      .read x.fd p.res :: (SessionDaemon.tell x.fd ((infoParts d.attachedPids).map utf8) p.writes ++ [.closed x.fd]) := by
  have hread : (Packet.readFrom p.inp p.reads).res = .ok (Packet.new .info) := hres
  have hdisp : d.dispatch i x.fd (Packet.new .info) p = d.handleInfo x.fd p.writes := rfl
  rw [SessionDaemon.act_packet d p hi, SessionDaemon.visit, hread, hres]
  simp only [hdisp, SessionDaemon.handleInfo_eq, SessionDaemon.drop, Bool.false_eq_true, if_false, List.cons_append]

theorem hears_info {s : Query} {i : Nat} {p : SessionDaemon.PacketAns} {f : RawFd} (hf : s.heardOn i = some f)
    (hres : (Packet.readFrom s.up p.reads).res = .ok (Packet.new .info)) :
    (s.step (.hears i p)).1 =
      ⟨(s.d.act (.packet i { p with inp := s.up })).1, .cut, (Packet.readFrom s.up p.reads).inp, some s.d.attachedPids,
        s.down ++ sentTo f (SessionDaemon.tell f ((infoParts s.d.attachedPids).map utf8) p.writes), s.out, s.ended⟩ := by
  obtain ⟨-, x, hi, rfl⟩ := heardOn_eq_some hf
  have hfx := act_info (p := { p with inp := s.up }) hi hres
  have hsent : sentTo x.fd (s.d.act (.packet i { p with inp := s.up })).2 =
      sentTo x.fd (SessionDaemon.tell x.fd ((infoParts s.d.attachedPids).map utf8) p.writes) := by
    rw [hfx, sentTo_cons, sentTo, List.flatMap_append]
    exact List.append_nil _
  have hcl : Effect.closed x.fd ∈ (s.d.act (.packet i { p with inp := s.up })).2 := by
    rw [hfx]
    simp
  simp only [step, hf, after, hsent, hcl, if_true, hres, packetOf, List.cons_ne_nil, if_false]

theorem readLoop_suffix : ∀ (reads : List ReadRet) (got inp : List Byte), (Packet.readLoop got inp reads).inp <:+ inp
  | [], got, inp => by
    rw [Packet.readLoop]
    split <;> exact List.suffix_refl _
  | r :: reads, got, inp => by
    rw [Packet.readLoop]
    split
    · split
      · exact List.suffix_refl _
      · exact (readLoop_suffix reads _ _).trans (List.drop_suffix _ _)
      · exact readLoop_suffix reads got inp
      · exact List.suffix_refl _
      · exact List.suffix_refl _
    · exact List.suffix_refl _

theorem ascii_of_cut {cuts : List Str} {pids : List Nat} (h : List.Forall₂ (· <+: ·) cuts (infoParts pids)) :
    Ascii cuts.flatten := by
  intro c hc
  obtain ⟨cut, hcut, hmem⟩ := List.mem_flatten.1 hc
  obtain ⟨k, hk, rfl⟩ := List.getElem_of_mem hcut
  have hlen := h.length_eq
  have hpre := h.get hk (hlen ▸ hk)
  exact ascii_infoParts pids _ (List.get_mem _ _) c (hpre.subset hmem)

/-- An act that does not read from a quiet connection leaves it quiet, and writes nothing to it. -/
theorem quiet_act {s : Query} {f : RawFd} (hn : (s.d.clients.map (·.fd)).Nodup) (hlink : s.link = .on f) (hq : Quiet f s.d)
    {a : SessionDaemon.Act} (hposs : s.d.Possible a) (hhear : ¬ s.hearing a = true) :
    sentTo f (s.d.act a).2 = [] ∧ Quiet f (s.d.act a).1 := by
  have hnot : ∀ i p, a = .packet i p → ∀ x, s.d.clients[i]? = some x → x.fd ≠ f := by
    rintro i p rfl x hi rfl
    exact hhear (by simp only [hearing, heardOn, hlink, hi, if_true, Option.isSome_some])
  have hno : SessionDaemon.NoAttach f s.d a := by
    cases a with
    | packet i p => exact fun x hi hx => absurd hx (hnot i p rfl x hi)
    | _ => trivial
  obtain ⟨hrep, hlive, hq'⟩ := SessionDaemon.quiet_step hn hposs hq hno
  refine ⟨?_, hq'⟩
  rw [sentTo_eq_outTo, SessionDaemon.act_out, hrep, hlive, List.append_nil]
  intro bs hbs
  obtain ⟨i, p, x, rfl, hi, hx, -⟩ := SessionDaemon.told_act hbs
  exact hnot i p rfl x hi hx

/-- A read that brings no packet leaves a quiet connection quiet or closed, and nothing is written to it. -/
theorem quiet_unread {d : SessionDaemon} {i : Nat} {x : Client} {p : SessionDaemon.PacketAns} {e : ProtocolError}
    (hn : (d.clients.map (·.fd)).Nodup) (hq : Quiet x.fd d) (hi : d.clients[i]? = some x) (hres : p.res = .error e) :
    sentTo x.fd (d.act (.packet i p)).2 = [] ∧ Quiet x.fd (d.act (.packet i p)).1 := by
  have hno : SessionDaemon.NoAttach x.fd d (.packet i p) := by
    intro y hy _ pkt hb
    have hok := hb.1
    rw [hres] at hok
    cases hok
  obtain ⟨-, -, hq'⟩ := SessionDaemon.quiet_step hn (a := .packet i p) trivial hq hno
  refine ⟨?_, hq'⟩
  have hread : (Packet.readFrom p.inp p.reads).res = .error e := hres
  rw [SessionDaemon.act_packet d p hi, SessionDaemon.visit, hread]
  cases e <;> rfl

theorem Answers.reading {whole : Prop} {s : Query} (h : Answers whole s) {r : ReadRet}
    (hw : whole → ∀ e, r = .fail e → e = .eintr) : Answers whole (s.reading r) := by
  cases r with
  | fail e =>
    cases e with
    | eintr => exact h
    | eagain =>
      refine ⟨h.nodup, h.up, h.waits, h.queued, h.quiet, h.told, fun hwhole => ?_⟩
      cases hw hwhole _ rfl
    | other n =>
      refine ⟨h.nodup, h.up, h.waits, h.queued, h.quiet, h.told, fun hwhole => ?_⟩
      cases hw hwhole _ rfl
  | closed =>
    simp only [Query.reading]
    split
    · rename_i hend
      exact ⟨h.nodup, h.up, h.waits, h.queued, h.quiet, h.told, fun _ _ => hend⟩
    · exact h
  | avail n =>
    refine ⟨h.nodup, h.up, fun hnone => ?_, h.queued, h.quiet, fun pids hpids => ?_, fun hwhole hend => ?_⟩
    · obtain ⟨hdown, hout⟩ := h.waits hnone
      simp only [Query.reading, hdown, hout, List.drop_nil, List.take_nil]
      exact ⟨trivial, rfl⟩
    · obtain ⟨cuts, t, hcuts, hdown, hall, hfull⟩ := h.told pids hpids
      have hascii : Ascii t := fun c hc => ascii_of_cut hcuts c (by rw [← hall]; exact List.mem_append_right _ hc)
      refine ⟨cuts, t.drop (min n bufsize), hcuts, ?_, ?_, hfull⟩
      · show s.down.drop _ = _
        rw [hdown, drop_utf8 hascii]
      · show s.out ++ fromUtf8Lossy (s.down.take _) ++ t.drop _ = _
        rw [hdown, take_utf8 hascii, fromUtf8Lossy_utf8 (hascii.beginning (List.take_prefix _ _)), List.append_assoc,
          List.take_append_drop, hall]
    · obtain ⟨hdown, hlink⟩ := h.read hwhole hend
      exact ⟨by simp only [Query.reading, hdown, List.drop_nil], hlink⟩

theorem Answers.hears {whole : Prop} {s : Query} (h : Answers whole s) {i : Nat} {p : SessionDaemon.PacketAns}
    (hw : whole → SessionDaemon.TakesLines p.writes (infoParts s.d.attachedPids)) {f : RawFd} (hf : s.heardOn i = some f) :
    Answers whole (s.step (.hears i p)).1 := by
  obtain ⟨hlink, x, hi, rfl⟩ := heardOn_eq_some hf
  obtain ⟨hnone, hq⟩ := h.quiet x.fd hlink
  obtain ⟨hdown, hout⟩ := h.waits hnone
  have hn' : ((s.d.act (.packet i { p with inp := s.up })).1.clients.map (·.fd)).Nodup :=
    SessionDaemon.act_nodup h.nodup trivial
  cases hres : (Packet.readFrom s.up p.reads).res with
  | ok pkt =>
    obtain rfl := eq_info_of_read (h.up hnone) hres
    rw [hears_info hf hres]
    refine ⟨hn', (fun hc => by cases hc), (fun hc => by cases hc), (fun hc => by cases hc), (fun _ hc => by cases hc),
      fun pids hpids => ?_, fun hwhole hend => ?_⟩
    · obtain rfl := Option.some.inj hpids
      by_cases hwhole : whole
      · refine ⟨infoParts s.d.attachedPids, infoReply s.d.attachedPids, List.forall₂_same.2 (fun _ _ => List.prefix_refl _),
          ?_, ?_, fun _ => rfl⟩
        · simp only [hdown, List.nil_append]
          exact SessionDaemon.tell_whole x.fd _ _ (infoParts_ne_nil _) (hw hwhole)
        · simp only [hout, List.nil_append]
          rfl
      · obtain ⟨cuts, hcuts, hsent⟩ := SessionDaemon.tell_cut x.fd (infoParts s.d.attachedPids) p.writes (ascii_infoParts _)
        refine ⟨cuts, cuts.flatten, hcuts, ?_, ?_, fun hc => absurd hc hwhole⟩
        · simp only [hdown, List.nil_append]
          exact hsent
        · simp only [hout, List.nil_append]
    · exact absurd hend (h.goes_on (by rw [hlink]; simp) hwhole)
  | error e =>
    obtain ⟨hsent, hq'⟩ := quiet_unread (p := { p with inp := s.up }) h.nodup hq hi hres
    have hup : (Packet.readFrom s.up p.reads).inp <:+ (Packet.new .info).bytes :=
      (readLoop_suffix p.reads [] s.up).trans (h.up hnone)
    simp only [step, hf, after, hsent, hres, packetOf, if_true, List.append_nil]
    refine ⟨hn', fun _ => hup, h.waits, fun hc => ?_, fun g hg => ?_, h.told, fun hwhole hend => ?_⟩
    · split at hc <;> cases hc
    · split at hg
      · cases hg
      · obtain rfl := Link.on.inj hg
        exact ⟨hnone, hq'⟩
    · exact absurd hend (h.goes_on (by rw [hlink]; simp) hwhole)

theorem Answers.step {whole : Prop} {s : Query} (h : Answers whole s) {ev : Asking} (hposs : Possible s ev)
    (hw : whole → Carries s ev) : Answers whole (s.step ev).1 := by
  cases ev with
  | accept r took =>
    have hn' : ((s.d.act (.accept r took)).1.clients.map (·.fd)).Nodup := SessionDaemon.act_nodup h.nodup hposs
    simp only [Query.step]
    split
    · rename_i hlink
      have hnone := h.queued hlink
      split
      · rename_i f cred
        refine ⟨hn', h.up, h.waits, (fun hc => by cases hc), fun g hg => ⟨hnone, ?_⟩, h.told, fun hwhole hend => ?_⟩
        · obtain rfl := Link.on.inj hg
          have hq : Quiet f s.d := fun x hx hxf => absurd (List.mem_map.2 ⟨x, hx, hxf⟩) hposs.1
          exact (SessionDaemon.quiet_step h.nodup (a := .accept (.conn f true cred) took) hposs hq trivial).2.2
        · exact absurd hend (h.goes_on (by rw [hlink]; simp) hwhole)
      · exact ⟨hn', h.up, h.waits, (fun hc => by cases hc), (fun _ hg => by cases hg), h.told,
          fun hwhole hend => ⟨(h.read hwhole hend).1, rfl⟩⟩
      · refine ⟨hn', h.up, h.waits, h.queued, fun g hg => ?_, h.told, h.read⟩
        rw [show s.link = .on g from hg] at hlink
        cases hlink
    · exact h
  | hears i p =>
    cases hf : s.heardOn i with
    | some f => exact h.hears hw hf
    | none =>
      simp only [Query.step, hf]
      exact h
  | daemon a =>
    have hn' : ((s.d.act a).1.clients.map (·.fd)).Nodup := SessionDaemon.act_nodup h.nodup hposs
    simp only [Query.step]
    split
    · exact h
    · rename_i hhear
      cases hlink : s.link with
      | on f =>
        obtain ⟨hnone, hq⟩ := h.quiet f hlink
        obtain ⟨hsent, hq'⟩ := quiet_act h.nodup hlink hq hposs hhear
        simp only [after, hsent, List.append_nil]
        refine ⟨hn', h.up, h.waits, fun hc => ?_, fun g hg => ?_, h.told, fun hwhole hend => ?_⟩
        · split at hc <;> cases hc
        · split at hg
          · cases hg
          · obtain rfl := Link.on.inj hg
            exact ⟨hnone, hq'⟩
        · exact absurd hend (h.goes_on (by rw [hlink]; simp) hwhole)
      | queued =>
        refine ⟨hn', h.up, h.waits, fun _ => h.queued hlink, (fun _ hg => by cases hg), h.told, fun hwhole hend => ?_⟩
        exact absurd hend (h.goes_on (by rw [hlink]; simp) hwhole)
      | cut =>
        exact ⟨hn', h.up, h.waits, (fun hc => by cases hc), (fun _ hg => by cases hg), h.told,
          fun hwhole hend => ⟨(h.read hwhole hend).1, rfl⟩⟩
  | quits =>
    exact ⟨h.nodup, h.up, h.waits, (fun hc => by cases hc), (fun _ hg => by cases hg), h.told,
      fun hwhole hend => ⟨(h.read hwhole hend).1, rfl⟩⟩
  | reads r =>
    simp only [Query.step]
    split
    · exact h
    · exact h.reading hw

theorem answers_run (whole : Prop) {d : SessionDaemon} (hn : (d.clients.map (·.fd)).Nodup) (evs : List Asking)
    (hposs : Along step Possible (begin d) evs) (hw : whole → Along step Carries (begin d) evs) :
    Answers whole (run step (begin d) evs).1 := by
  have hcarries : Along step (fun s ev => whole → Carries s ev) (begin d) evs := by
    by_cases hwhole : whole
    · exact (hw hwhole).mono (fun _ _ h _ => h)
    · exact Machine.along_of_forall evs _ (fun _ _ _ h => absurd h hwhole)
  refine Along.inv (I := Answers whole) (fun s ev hs h => hs.step h.1 h.2) ?_ (hposs.and hcarries)
  exact ⟨hn, fun _ => List.suffix_refl _, fun _ => ⟨rfl, rfl⟩, fun _ => rfl, (fun _ hf => by cases hf),
    (fun _ hc => by cases hc), fun _ hend => by cases hend⟩

/-- The line `info` prints of a session with these clients attached. -/
def infoText (progname name : Str) (pids : List Nat) : Str :=
  progname ++ ": '".toList ++ name ++ "': ".toList ++ infoReply pids

/-- **What `info` prints is true**: whatever the daemon does with its other clients before and after it reads the packet, and
wherever what it answers is cut, a line that reads as an answer names the clients that were attached when the packet was read;
and when the answer is carried whole, that is the line printed. -/
theorem info_is_true {d : SessionDaemon} {tr : List Effect} (hd : SessionDaemon.Reachable d tr) (evs : List Asking)
    (hposs : Along step Possible (begin d) evs) (progname name : Str) (pids : List Nat) :
    let s := (run step (begin d) evs).1
    (s.prints progname name = some (infoText progname name pids) → s.about = some pids) ∧
      (Along step Carries (begin d) evs → s.ended = true → s.about = some pids →
        s.prints progname name = some (infoText progname name pids)) := by
  intro s
  refine ⟨fun hprints => ?_, fun hcarries hend habout => ?_⟩
  · have h := answers_run False hd.nodup evs hposs False.elim
    have hout : s.out = infoReply pids := by
      unfold prints at hprints
      split at hprints
      · exact List.append_cancel_left (Option.some.inj hprints)
      · cases hprints
    cases habout : s.about with
    | none =>
      rw [(h.waits habout).2] at hout
      have hne := List.append_ne_nil_of_left_ne_nil (infoParts_ne_nil pids _ List.mem_cons_self) (pids.map infoLine).flatten
      exact absurd hout.symm hne
    | some pids' =>
      obtain ⟨cuts, t, hcuts, -, hall, -⟩ := h.told pids' habout
      obtain ⟨cuts', hcuts', hcut⟩ := cut_beginning hcuts (show s.out <+: cuts.flatten from ⟨t, hall⟩)
      rw [infoReply_of_cut hcuts' (hcut.symm.trans hout)]
  · have h := answers_run True hd.nodup evs hposs (fun _ => hcarries)
    obtain ⟨cuts, t, -, hdown, hall, hfull⟩ := h.told pids habout
    have hnil : t = [] := by
      by_contra hne
      exact SessionDaemon.utf8_ne_nil hne (hdown.symm.trans (h.read trivial hend).1)
    rw [hnil, List.append_nil, hfull trivial] at hall
    rw [prints, if_pos hend, infoText, show s.out = infoReply pids from hall]

instance (s : Query) (ev : Asking) : Decidable (Carries s ev) :=
  match ev with
  | .hears _ p => inferInstanceAs (Decidable (List.Forall₂ (fun w (l : Str) => SessionDaemon.InFull w (utf8 l).length)
      p.writes (infoParts s.d.attachedPids)))
  | .reads (.fail e) => decidable_of_iff (e = .eintr) ⟨fun h _ h' => ReadRet.fail.inj h' ▸ h, fun h => h e rfl⟩
  | .reads (.avail _) | .reads .closed => isTrue (fun _ h => by cases h)
  | .accept _ _ | .daemon _ | .quits => isTrue trivial

/-- A client of process 77 attaches, and `info` connects. -/
def askedBefore : List Asking :=
  [.daemon (.accept (.conn 6 true (some 77)) 0), .daemon (.packet 0 (.whole (Packet.new .attach) [])),
    .accept (.conn 5 true none) 0]

/-- Its packet is read, and it reads the answer in two pieces. -/
def askedOf77 : List Asking :=
  askedBefore ++ [.hears 1 ⟨[], [.avail 10], [.room 100, .room 100], .fail .eagain, none⟩] ++
    [.reads (.avail 9), .reads (.fail .eintr), .reads (.avail 100), .reads .closed]

theorem askedOf77_ends :
    let s := (run step (begin SessionDaemon.fresh) askedOf77).1
    s.ended = true ∧ s.about = some [77] := by
  have hf : (run step (begin SessionDaemon.fresh) askedBefore).1.heardOn 1 = some 5 := by decide +kernel
  have hres : (Packet.readFrom (run step (begin SessionDaemon.fresh) askedBefore).1.up [.avail 10]).res =
      .ok (Packet.new .info) := rfl
  intro s
  simp only [s, askedOf77, Machine.run_append, Machine.run_singleton]
  rw [hears_info hf hres]
  decide +kernel

theorem askedOf77_true :
    let s := (run step (begin SessionDaemon.fresh) askedOf77).1
    s.prints "zatch".toList "s".toList = some (infoText "zatch".toList "s".toList [77]) ∧ s.about = some [77] := by
  obtain ⟨htrue, hwhole⟩ := info_is_true SessionDaemon.fresh_reachable askedOf77 (by decide +kernel) "zatch".toList "s".toList [77]
  have hprints := hwhole (by decide +kernel) askedOf77_ends.1 askedOf77_ends.2
  exact ⟨hprints, htrue hprints⟩

end Query

end Zatch
