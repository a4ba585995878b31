import Zatch.DaemonRun
/-!
# SendToClients — a chunk of output and the clients it is sent to

What `send_to_clients` does to one client (`sendLoop_client`): nothing, or the whole chunk once, or a part of the chunk
and the client is closed and removed.  An attached client the chunk was not sent to is left so only because another
client took the chunk or a connection was waiting (`sendLoop_excuse`), and it was not ready in any round
(`sendLoop_unready`).
-/
namespace Zatch
namespace SessionDaemon

/-- The clients on a descriptor: at most one, in a reachable state. -/
def clientsAt (cs : List Client) (f : RawFd) : List Client := cs.filter (fun c => decide (c.fd = f))

theorem mem_clientsAt {cs : List Client} {f : RawFd} {c : Client} : c ∈ clientsAt cs f ↔ c ∈ cs ∧ c.fd = f := by
  simp [clientsAt]

theorem fd_of_clientsAt {cs : List Client} {f : RawFd} {c : Client} (h : clientsAt cs f = [c]) : c ∈ cs ∧ c.fd = f :=
  mem_clientsAt.1 (by rw [h]; exact List.mem_cons_self)

theorem eq_of_clientsAt {cs : List Client} {f : RawFd} {c c' : Client} (h : clientsAt cs f = [c]) (hc : c' ∈ cs)
    (hf : c'.fd = f) : c' = c := by
  have : c' ∈ clientsAt cs f := mem_clientsAt.2 ⟨hc, hf⟩
  rw [h] at this
  exact List.mem_singleton.1 this

theorem clientsAt_of_nodup : ∀ {cs : List Client}, (cs.map (·.fd)).Nodup → ∀ {c : Client}, c ∈ cs →
    clientsAt cs c.fd = [c]
  | [], _, _, hc => by cases hc
  | x :: cs, hn, c, hc => by
    rw [List.map_cons, List.nodup_cons] at hn
    unfold clientsAt
    rcases List.mem_cons.1 hc with rfl | hc
    · have hnil : cs.filter (fun y => decide (y.fd = c.fd)) = [] := List.filter_eq_nil_iff.2 (fun y hy hyf => by
        exact hn.1 (List.mem_map.2 ⟨y, hy, by simpa using hyf⟩))
      rw [List.filter_cons_of_pos (by simp), hnil]
    · have hne : x.fd ≠ c.fd := fun he => hn.1 (List.mem_map.2 ⟨c, hc, he.symm⟩)
      rw [List.filter_cons_of_neg (by simpa using hne)]
      exact clientsAt_of_nodup hn.2 hc

/-- What is done for each client apart reaches a descriptor only through the clients on it. -/
theorem flatMap_clientsAt {β : Type} (proj : Effect → List β) (f : RawFd) (g : Client → List Effect)
    (hg : ∀ c, c.fd ≠ f → (g c).flatMap proj = []) :
    ∀ cs : List Client, (cs.flatMap g).flatMap proj = (clientsAt cs f).flatMap (fun c => (g c).flatMap proj)
  | [] => rfl
  | c :: cs => by
    unfold clientsAt
    rw [List.flatMap_cons, List.flatMap_append, flatMap_clientsAt proj f g hg cs]
    by_cases hc : c.fd = f
    · rw [List.filter_cons_of_pos (by simpa using hc), List.flatMap_cons]; rfl
    · rw [List.filter_cons_of_neg (by simpa using hc), hg c hc, List.nil_append]; rfl

/-! ## One round -/

section round
variable (data : List Byte) (w : Client → Option (Except Errno Nat)) (f : RawFd)

def badFds (cs : List Client) : List RawFd := (cs.filter (fun c => isBad data (w c))).map (·.fd)

def kept (cs : List Client) : List Client := cs.filter (fun c => c.fd ∉ badFds data w cs)

def roundFx (cs : List Client) : List Effect :=
  cs.flatMap (fun c => liveFx data c (w c)) ++ (badFds data w cs).map .closed

theorem mem_badFds {cs : List Client} {f : RawFd} {c : Client} (h : clientsAt cs f = [c]) :
    f ∈ badFds data w cs ↔ isBad data (w c) = true := by
  obtain ⟨hc, hf⟩ := fd_of_clientsAt h
  constructor
  · intro hm
    obtain ⟨c', hc', rfl⟩ := List.mem_map.1 hm
    obtain ⟨hmem, hbad⟩ := List.mem_filter.1 hc'
    rwa [eq_of_clientsAt h hmem rfl] at hbad
  · intro hbad
    exact List.mem_map.2 ⟨c, List.mem_filter.2 ⟨hc, hbad⟩, hf⟩

theorem clientsAt_kept {cs : List Client} {f : RawFd} {c : Client} (h : clientsAt cs f = [c]) :
    clientsAt (kept data w cs) f = if isBad data (w c) then [] else [c] := by
  have hf := (fd_of_clientsAt h).2
  have hswap : clientsAt (kept data w cs) f = (clientsAt cs f).filter (fun c => c.fd ∉ badFds data w cs) := by
    simp only [clientsAt, kept, List.filter_filter, Bool.and_comm]
  rw [hswap, h]
  cases hb : isBad data (w c) with
  | true => simp [hf, (mem_badFds data w h).2 hb]
  | false =>
    have hno : f ∉ badFds data w cs := fun hm => by rw [(mem_badFds data w h).1 hm] at hb; cases hb
    simp [hf, hno]

theorem clientsAt_kept_nil {cs : List Client} {f : RawFd} (h : clientsAt cs f = []) :
    clientsAt (kept data w cs) f = [] := by
  simp only [clientsAt, kept, List.filter_filter, List.filter_eq_nil_iff] at h ⊢
  intro c hc hcf
  exact h c hc (by simp only [Bool.and_eq_true] at hcf; exact hcf.1)

theorem kept_sublist (cs : List Client) : (kept data w cs).Sublist cs := List.filter_sublist

theorem liveTo_closed (fds : List RawFd) : liveTo f (fds.map .closed) = [] := by
  induction fds with
  | nil => rfl
  | cons x xs ih => simpa [Effect.liveOf] using ih

theorem liveTo_liveFx_of_ne {c : Client} (h : c.fd ≠ f) (x : Option (Except Errno Nat)) :
    liveTo f (liveFx data c x) = [] := by
  unfold liveFx
  split <;> simp [Effect.liveOf, h]

def sentBy (data : List Byte) : Option (Except Errno Nat) → List Byte
  | some (.ok n) => data.take n
  | _ => []

theorem liveTo_liveFx (c : Client) (x : Option (Except Errno Nat)) : liveTo c.fd (liveFx data c x) = sentBy data x := by
  unfold liveFx sentBy
  split <;> simp [Effect.liveOf]

theorem liveTo_roundFx {cs : List Client} {f : RawFd} {c : Client} (h : clientsAt cs f = [c]) :
    liveTo f (roundFx data w cs) = sentBy data (w c) := by
  have hf := (fd_of_clientsAt h).2
  rw [roundFx, liveTo_append, liveTo_closed, List.append_nil, liveTo,
    flatMap_clientsAt (Effect.liveOf f) f _ (fun c hc => liveTo_liveFx_of_ne data f hc _), h]
  rw [List.flatMap_cons, List.flatMap_nil, List.append_nil, ← hf]
  exact liveTo_liveFx data c (w c)

theorem liveTo_roundFx_nil {cs : List Client} {f : RawFd} (h : clientsAt cs f = []) :
    liveTo f (roundFx data w cs) = [] := by
  rw [roundFx, liveTo_append, liveTo_closed, List.append_nil, liveTo,
    flatMap_clientsAt (Effect.liveOf f) f _ (fun c hc => liveTo_liveFx_of_ne data f hc _), h]
  rfl

theorem roundFx_cases (cs : List Client) : ∀ e ∈ roundFx data w cs, (∃ g bs, e = .live g bs) ∨ ∃ g, e = .closed g := by
  intro e he
  rcases List.mem_append.1 he with he | he
  · obtain ⟨c, -, hc⟩ := List.mem_flatMap.1 he
    unfold liveFx at hc
    split at hc
    · exact .inl ⟨_, _, List.mem_singleton.1 hc⟩
    · cases hc
  · obtain ⟨g, -, rfl⟩ := List.mem_map.1 he
    exact .inr ⟨g, rfl⟩

end round

/-! ## The loop -/

abbrev roundWrites (data : List Byte) (r : Round) (cs : List Client) (w : List RawFd) : Client → Option (Except Errno Nat) :=
  liveWrite (((cs.filter (·.attached)).map (·.fd)).filter (· ∈ w)) r.wrote data

theorem sendLoop_ready (l : RawFd) (data : List Byte) (r : Round) (rs : List Round) (cs : List Client)
    (rd w : List RawFd) (hr : r.sel = .ready rd w) :
    sendLoop l data (r :: rs) cs =
      let ws := roundWrites data r cs w
      if cs.any (fun c => isWhole data (ws c)) = true ∨ l ∈ [l].filter (· ∈ rd) ∨
          (kept data ws cs).filter (·.attached) = [] then
        ⟨kept data ws cs, roundFx data ws cs, true⟩
      else
        { sendLoop l data rs (kept data ws cs) with
          fx := roundFx data ws cs ++ (sendLoop l data rs (kept data ws cs)).fx } := by
  rw [sendLoop, hr]
  rfl

theorem sendLoop_sublist (l : RawFd) (data : List Byte) : ∀ (rs : List Round) (cs : List Client),
    (sendLoop l data rs cs).clients.Sublist cs
  | [], cs => List.Sublist.refl cs
  | r :: rs, cs => by
    cases hr : r.sel with
    | fail e =>
      rw [sendLoop, hr]
      cases e with
      | eintr => exact sendLoop_sublist l data rs cs
      | eagain => exact List.Sublist.refl cs
      | other n => exact List.Sublist.refl cs
    | ready rd w =>
      rw [sendLoop_ready l data r rs cs rd w hr]
      simp only
      split
      · exact kept_sublist _ _ _
      · exact (sendLoop_sublist l data rs _).trans (kept_sublist _ _ _)

theorem sendLoop_cases (l : RawFd) (data : List Byte) : ∀ (rs : List Round) (cs : List Client),
    ∀ e ∈ (sendLoop l data rs cs).fx, (∃ g bs, e = .live g bs) ∨ ∃ g, e = .closed g
  | [], _, _, he => by cases he
  | r :: rs, cs, e, he => by
    cases hr : r.sel with
    | fail n =>
      rw [sendLoop, hr] at he
      cases n with
      | eintr => exact sendLoop_cases l data rs cs e he
      | eagain => cases he
      | other n => cases he
    | ready rd w =>
      rw [sendLoop_ready l data r rs cs rd w hr] at he
      simp only at he
      split at he
      · exact roundFx_cases data _ cs e he
      · rcases List.mem_append.1 he with he | he
        · exact roundFx_cases data _ cs e he
        · exact sendLoop_cases l data rs _ e he

theorem replayedTo_sendLoop (l : RawFd) (data : List Byte) (f : RawFd) (rs : List Round) (cs : List Client) :
    replayedTo f (sendLoop l data rs cs).fx = [] :=
  List.flatMap_eq_nil_iff.2 (fun e he => by
    rcases sendLoop_cases l data rs cs e he with ⟨g, bs, rfl⟩ | ⟨g, rfl⟩ <;> rfl)

theorem write_cases (wfds : FdSet) (wrote : RawFd → WriteRet) {data : List Byte} (hd : data ≠ []) (c : Client) :
    (isWhole data (liveWrite wfds wrote data c) = true ∧ isBad data (liveWrite wfds wrote data c) = false ∧
      sentBy data (liveWrite wfds wrote data c) = data ∧ c.attached = true) ∨
    (isWhole data (liveWrite wfds wrote data c) = false ∧ isBad data (liveWrite wfds wrote data c) = true ∧
      (∃ n, n < data.length ∧ sentBy data (liveWrite wfds wrote data c) = data.take n) ∧ c.attached = true) ∨
    (isWhole data (liveWrite wfds wrote data c) = false ∧ isBad data (liveWrite wfds wrote data c) = false ∧
      sentBy data (liveWrite wfds wrote data c) = []) := by
  have hpos : 0 < data.length := List.length_pos_iff.2 hd
  unfold liveWrite
  split
  · rename_i hc
    cases hw : (wrote c.fd).ret data.length with
    | ok n =>
      have hle := WriteRet.ret_le hw
      by_cases hn : n = data.length
      · subst hn
        exact .inl ⟨by simp [isWhole], by simp [isBad], by simp [sentBy], hc.1⟩
      · exact .inr (.inl ⟨by simpa [isWhole] using hn, by simpa [isBad] using hn, ⟨n, by omega, rfl⟩, hc.1⟩)
    | error e =>
      by_cases he : e = .eagain
      · exact .inr (.inr ⟨rfl, by simp [isBad, he], rfl⟩)
      · exact .inr (.inl ⟨rfl, by simpa [isBad] using he, ⟨0, hpos, rfl⟩, hc.1⟩)
  · exact .inr (.inr ⟨rfl, rfl, rfl⟩)

/-- Some client took the whole chunk. -/
theorem round_of_any {wfds : FdSet} {wrote : RawFd → WriteRet} {data : List Byte} (hd : data ≠ []) {cs : List Client}
    (hn : (cs.map (·.fd)).Nodup) (hany : cs.any (fun c => isWhole data (liveWrite wfds wrote data c)) = true) :
    ∃ c ∈ kept data (liveWrite wfds wrote data) cs, c.attached = true ∧
      liveTo c.fd (roundFx data (liveWrite wfds wrote data) cs) = data := by
  obtain ⟨c, hc, hw⟩ := List.any_eq_true.1 hany
  have h := clientsAt_of_nodup hn hc
  rcases write_cases wfds wrote hd c with ⟨-, hb, hs, ha⟩ | ⟨hw', -⟩ | ⟨hw', -⟩
  · have hkept : clientsAt (kept data (liveWrite wfds wrote data) cs) c.fd = [c] := by
      rw [clientsAt_kept _ _ h, hb]
      rfl
    exact ⟨c, (fd_of_clientsAt hkept).1, ha, (liveTo_roundFx _ _ h).trans hs⟩
  · rw [hw'] at hw
    cases hw
  · rw [hw'] at hw
    cases hw

theorem round_of_not_any {wfds : FdSet} {wrote : RawFd → WriteRet} {data : List Byte} (hd : data ≠ []) {cs : List Client}
    (hany : cs.any (fun c => isWhole data (liveWrite wfds wrote data c)) = false) {f : RawFd} {c : Client}
    (h : clientsAt cs f = [c]) (hkept : clientsAt (kept data (liveWrite wfds wrote data) cs) f = [c]) :
    liveTo f (roundFx data (liveWrite wfds wrote data) cs) = [] := by
  rw [liveTo_roundFx _ _ h]
  rcases write_cases wfds wrote hd c with ⟨hw, -⟩ | ⟨-, hb, -⟩ | ⟨-, -, hs⟩
  · rw [List.any_eq_false.1 hany c (fd_of_clientsAt h).1 |> Bool.eq_false_iff.2] at hw; cases hw
  · rw [clientsAt_kept _ _ h, if_pos hb] at hkept; cases hkept
  · exact hs

theorem sendLoop_absent (l : RawFd) (data : List Byte) (f : RawFd) : ∀ (rs : List Round) (cs : List Client),
    clientsAt cs f = [] → clientsAt (sendLoop l data rs cs).clients f = [] ∧ liveTo f (sendLoop l data rs cs).fx = []
  | [], cs, h => ⟨h, rfl⟩
  | r :: rs, cs, h => by
    cases hr : r.sel with
    | fail e =>
      rw [sendLoop, hr]
      cases e with
      | eintr => exact sendLoop_absent l data f rs cs h
      | eagain => exact ⟨h, rfl⟩
      | other n => exact ⟨h, rfl⟩
    | ready rd w =>
      rw [sendLoop_ready l data r rs cs rd w hr]
      simp only
      have hk := clientsAt_kept_nil data (roundWrites data r cs w) h
      split
      · exact ⟨hk, liveTo_roundFx_nil data _ h⟩
      · obtain ⟨h1, h2⟩ := sendLoop_absent l data f rs _ hk
        exact ⟨h1, by rw [liveTo_append, liveTo_roundFx_nil data _ h, h2, List.append_nil]⟩

/-- **A chunk and one client**: nothing of it is sent to the client, or the whole of it, once; or a part of it, and the
client is closed and removed. -/
theorem sendLoop_client (l : RawFd) {data : List Byte} (hd : data ≠ []) (f : RawFd) (c : Client) :
    ∀ (rs : List Round) (cs : List Client), clientsAt cs f = [c] →
      (clientsAt (sendLoop l data rs cs).clients f = [c] ∧ (liveTo f (sendLoop l data rs cs).fx = [] ∨
        c.attached = true ∧ liveTo f (sendLoop l data rs cs).fx = data)) ∨
      (clientsAt (sendLoop l data rs cs).clients f = [] ∧ c.attached = true ∧
        Effect.closed f ∈ (sendLoop l data rs cs).fx ∧
        ∃ n, n < data.length ∧ liveTo f (sendLoop l data rs cs).fx = data.take n)
  | [], cs, h => .inl ⟨h, .inl rfl⟩
  | r :: rs, cs, h => by
    cases hr : r.sel with
    | fail e =>
      rw [sendLoop, hr]
      cases e with
      | eintr => exact sendLoop_client l hd f c rs cs h
      | eagain => exact .inl ⟨h, .inl rfl⟩
      | other n => exact .inl ⟨h, .inl rfl⟩
    | ready rd w =>
      rw [sendLoop_ready l data r rs cs rd w hr]
      simp only
      have hk := clientsAt_kept data (roundWrites data r cs w) h
      have hlive := liveTo_roundFx data (roundWrites data r cs w) h
      rcases write_cases (((cs.filter (·.attached)).map (·.fd)).filter (· ∈ w)) r.wrote hd c with
        ⟨hw, hb, hs, ha⟩ | ⟨-, hb, ⟨n, hn, hs⟩, ha⟩ | ⟨-, hb, hs⟩
      · -- the whole chunk was taken, and the loop is over
        have hany : cs.any (fun c => isWhole data (roundWrites data r cs w c)) = true :=
          List.any_eq_true.2 ⟨c, (fd_of_clientsAt h).1, hw⟩
        rw [hb] at hk
        rw [if_pos (.inl hany)]
        exact .inl ⟨hk, .inr ⟨ha, hlive.trans hs⟩⟩
      · -- a part was taken, or the write failed: the client is gone
        rw [hb] at hk
        have hclosed : Effect.closed f ∈ roundFx data (roundWrites data r cs w) cs :=
          List.mem_append_right _ (List.mem_map.2 ⟨f, (mem_badFds data _ h).2 hb, rfl⟩)
        split
        · exact .inr ⟨hk, ha, hclosed, n, hn, hlive.trans hs⟩
        · obtain ⟨h1, h2⟩ := sendLoop_absent l data f rs _ hk
          exact .inr ⟨h1, ha, List.mem_append_left _ hclosed, n, hn, by rw [liveTo_append, h2, hlive, hs, List.append_nil]⟩
      · -- nothing was taken
        rw [hb] at hk
        split
        · exact .inl ⟨hk, .inl (hlive.trans hs)⟩
        · rw [liveTo_append, hlive, hs, List.nil_append]
          rcases sendLoop_client l hd f c rs _ hk with h1 | ⟨h1, h2, h3, h4⟩
          · exact .inl h1
          · exact .inr ⟨h1, h2, List.mem_append_right _ h3, h4⟩

/-- The rounds of the loop, up to the one that it comes back in. -/
def roundsRun (l : RawFd) (data : List Byte) : List Round → List Client → List Round
  | [], _ => []
  | r :: rs, cs =>
    r :: if (sendLoop l data [r] cs).returned then [] else roundsRun l data rs (sendLoop l data [r] cs).clients

theorem roundsRun_eintr (l : RawFd) (data : List Byte) {r : Round} (hr : r.sel = .fail .eintr) (rs : List Round)
    (cs : List Client) : roundsRun l data (r :: rs) cs = r :: roundsRun l data rs cs := by
  have hone : sendLoop l data [r] cs = ⟨cs, [], false⟩ := by
    rw [sendLoop, hr]
    rfl
  rw [roundsRun, hone]
  rfl

theorem roundsRun_ready (l : RawFd) (data : List Byte) (r : Round) (rs : List Round) (cs : List Client) (rd w : List RawFd)
    (hr : r.sel = .ready rd w) :
    roundsRun l data (r :: rs) cs =
      let ws := roundWrites data r cs w
      r :: if cs.any (fun c => isWhole data (ws c)) = true ∨ l ∈ [l].filter (· ∈ rd) ∨
          (kept data ws cs).filter (·.attached) = [] then []
        else roundsRun l data rs (kept data ws cs) := by
  rw [roundsRun, sendLoop_ready l data r [] cs rd w hr]
  simp only
  split
  · rfl
  · rfl

/-- In none of these rounds is the client reported writable and its write answered other than with `EAGAIN`. -/
def Unready (f : RawFd) (rs : List Round) : Prop :=
  ∀ r ∈ rs, ∀ rd w, r.sel = .ready rd w → f ∈ w → r.wrote f = .fail .eagain

/-- The kernel says that a connection is waiting. -/
def Waiting (l : RawFd) (rs : List Round) : Prop := ∃ r ∈ rs, ∃ rd w, r.sel = .ready rd w ∧ l ∈ rd

/-- `select` fails at most with `EINTR`. -/
def Interrupted (rs : List Round) : Prop := ∀ r ∈ rs, ∀ e, r.sel = .fail e → e = .eintr

/-- **Why an attached client is left without the chunk**: another client took the whole of it, or a connection was
waiting. -/
theorem sendLoop_excuse (l : RawFd) {data : List Byte} (hd : data ≠ []) (f : RawFd) (c : Client) (ha : c.attached = true) :
    ∀ (rs : List Round) (cs : List Client), Interrupted rs → (cs.map (·.fd)).Nodup → clientsAt cs f = [c] →
      (sendLoop l data rs cs).returned = true → clientsAt (sendLoop l data rs cs).clients f = [c] →
      liveTo f (sendLoop l data rs cs).fx = [] →
      (∃ c' ∈ (sendLoop l data rs cs).clients, c'.fd ≠ f ∧ c'.attached = true ∧
        liveTo c'.fd (sendLoop l data rs cs).fx = data) ∨ Waiting l (roundsRun l data rs cs)
  | [], cs, _, _, _, hret, _, _ => by cases hret
  | r :: rs, cs, hint, hn, h, hret, hin, hnone => by
    have hint' : Interrupted rs := fun r' hr' => hint r' (List.mem_cons_of_mem _ hr')
    have hmore : ∀ {rs'}, Waiting l rs' → Waiting l (r :: rs') := fun ⟨r', hr', hw⟩ => ⟨r', List.mem_cons_of_mem _ hr', hw⟩
    cases hr : r.sel with
    | fail e =>
      obtain rfl := hint r List.mem_cons_self e hr
      rw [roundsRun_eintr l data hr]
      rw [sendLoop, hr] at hret hin hnone ⊢
      exact (sendLoop_excuse l hd f c ha rs cs hint' hn h hret hin hnone).imp id hmore
    | ready rd w =>
      rw [roundsRun_ready l data r rs cs rd w hr]
      rw [sendLoop_ready l data r rs cs rd w hr] at hret hin hnone ⊢
      simp only at hret hin hnone ⊢
      have hnk : ((kept data (roundWrites data r cs w) cs).map (·.fd)).Nodup :=
        hn.sublist ((kept_sublist _ _ _).map _)
      split at hret
      · rename_i hstop
        rw [if_pos hstop] at hin hnone
        rw [if_pos hstop, if_pos hstop]
        rcases hstop with hany | hl | hempty
        · -- some client took the chunk
          obtain ⟨c', hkept, ha', hlive⟩ := round_of_any hd hn hany
          refine .inl ⟨c', hkept, fun hf => ?_, ha', hlive⟩
          rw [hf] at hlive
          exact hd (hlive.symm.trans hnone)
        · exact .inr ⟨r, List.mem_cons_self, rd, w, hr, by simpa using hl⟩
        · -- no attached client is left, but this one is
          have := List.filter_eq_nil_iff.1 hempty c (fd_of_clientsAt hin).1
          exact absurd ha this
      · rename_i hgo
        rw [if_neg hgo] at hin hnone
        rw [if_neg hgo, if_neg hgo]
        simp only [not_or, Bool.not_eq_true] at hgo
        have hck : ∀ c' ∈ (sendLoop l data rs (kept data (roundWrites data r cs w) cs)).clients,
            liveTo c'.fd (roundFx data (roundWrites data r cs w) cs) = [] := fun c' hc' => by
          have hmem := (sendLoop_sublist l data rs _).subset hc'
          exact round_of_not_any hd hgo.1 (clientsAt_of_nodup hn ((kept_sublist _ _ _).subset hmem))
            (clientsAt_of_nodup hnk hmem)
        rw [liveTo_append, List.append_eq_nil_iff] at hnone
        have hkept : clientsAt (kept data (roundWrites data r cs w) cs) f = [c] := by
          obtain ⟨hc, hf⟩ := fd_of_clientsAt hin
          rw [← hf]
          exact clientsAt_of_nodup hnk ((sendLoop_sublist l data rs _).subset hc)
        rcases sendLoop_excuse l hd f c ha rs _ hint' hnk hkept hret hin hnone.2 with ⟨c', hc', hf', ha', hl'⟩ | hw
        · exact .inl ⟨c', hc', hf', ha', by rw [liveTo_append, hck c' hc', hl', List.nil_append]⟩
        · exact .inr (hmore hw)

/-- The write to an attached client that is reported writable. -/
theorem roundWrites_ready {data : List Byte} {r : Round} {cs : List Client} {w : List RawFd} {f : RawFd} {c : Client}
    (h : clientsAt cs f = [c]) (ha : c.attached = true) (hf : f ∈ w) :
    roundWrites data r cs w c = some ((r.wrote f).ret data.length) := by
  obtain ⟨hmem, rfl⟩ := fd_of_clientsAt h
  have hready : c.fd ∈ ((cs.filter (·.attached)).map (·.fd)).filter (· ∈ w) :=
    List.mem_filter.2 ⟨List.mem_map.2 ⟨c, List.mem_filter.2 ⟨hmem, ha⟩, rfl⟩, by simpa using hf⟩
  exact if_pos ⟨ha, hready⟩

/-- A write that neither sends anything nor costs the client its place is put off. -/
theorem eagain_of_left {data : List Byte} (hd : data ≠ []) {wrote : WriteRet}
    (hb : isBad data (some (wrote.ret data.length)) = false) (hs : sentBy data (some (wrote.ret data.length)) = []) :
    wrote = .fail .eagain := by
  cases wrote with
  | room n =>
    rw [WriteRet.ret] at hb hs
    have hall : min n data.length = data.length := by simpa [isBad] using hb
    rw [hall] at hs
    exact absurd (by simpa [sentBy] using hs) hd
  | fail e =>
    rw [WriteRet.ret] at hb
    obtain rfl : e = .eagain := by simpa [isBad] using hb
    rfl

/-- **And it was not ready**: a client that is reported writable and whose write is not put off has the chunk, or is gone. -/
theorem sendLoop_unready (l : RawFd) {data : List Byte} (hd : data ≠ []) (f : RawFd) (c : Client) (ha : c.attached = true) :
    ∀ (rs : List Round) (cs : List Client), Interrupted rs → clientsAt cs f = [c] →
      clientsAt (sendLoop l data rs cs).clients f = [c] → liveTo f (sendLoop l data rs cs).fx = [] →
      Unready f (roundsRun l data rs cs)
  | [], _, _, _, _, _ => fun r hr => by cases hr
  | r :: rs, cs, hint, h, hin, hnone => by
    have hint' : Interrupted rs := fun r' hr' => hint r' (List.mem_cons_of_mem _ hr')
    cases hr : r.sel with
    | fail e =>
      obtain rfl := hint r List.mem_cons_self e hr
      rw [roundsRun_eintr l data hr]
      rw [sendLoop, hr] at hin hnone
      refine List.forall_mem_cons.2 ⟨fun rd w hsel => ?_, sendLoop_unready l hd f c ha rs cs hint' h hin hnone⟩
      rw [hr] at hsel
      cases hsel
    | ready rd w =>
      rw [roundsRun_ready l data r rs cs rd w hr]
      rw [sendLoop_ready l data r rs cs rd w hr] at hin hnone
      simp only at hin hnone ⊢
      have hk := clientsAt_kept data (roundWrites data r cs w) h
      have hlive := liveTo_roundFx data (roundWrites data r cs w) h
      -- the round leaves the client where it is, with nothing sent to it
      have hb : isBad data (roundWrites data r cs w c) = false := by
        by_contra hbad
        rw [Bool.not_eq_false] at hbad
        rw [hbad, if_pos rfl] at hk
        split at hin
        · rw [hk] at hin
          cases hin
        · rw [(sendLoop_absent l data f rs _ hk).1] at hin
          cases hin
      have hs : sentBy data (roundWrites data r cs w c) = [] := by
        rw [← hlive]
        split at hnone
        · exact hnone
        · rw [liveTo_append, List.append_eq_nil_iff] at hnone
          exact hnone.1
      rw [hb, if_neg Bool.false_ne_true] at hk
      refine List.forall_mem_cons.2 ⟨fun rd' w' hsel hf => ?_, ?_⟩
      · rw [hr] at hsel
        obtain ⟨-, rfl⟩ := SelectRet.ready.inj hsel
        rw [roundWrites_ready h ha hf] at hb hs
        exact eagain_of_left hd hb hs
      · split at hin
        · rename_i hstop
          rw [if_pos hstop]
          exact fun r hr => by cases hr
        · rename_i hgo
          rw [if_neg hgo] at hnone ⊢
          rw [liveTo_append, List.append_eq_nil_iff] at hnone
          exact sendLoop_unready l hd f c ha rs _ hint' hk hin hnone.2

/-- `select` finds the descriptor writable and a write to it is accepted in full, in every round. -/
def Accepting (f : RawFd) (data : List Byte) (rs : List Round) : Prop :=
  ∀ r ∈ rs, (∀ rd w, r.sel = .ready rd w → f ∈ w) ∧ ∃ n, r.wrote f = .room n ∧ data.length ≤ n

theorem sendLoop_accepting (l : RawFd) {data : List Byte} {f : RawFd} {c : Client} (ha : c.attached = true) :
    ∀ (rs : List Round) (cs : List Client), Interrupted rs → Accepting f data rs → clientsAt cs f = [c] →
      (sendLoop l data rs cs).returned = true →
      clientsAt (sendLoop l data rs cs).clients f = [c] ∧ liveTo f (sendLoop l data rs cs).fx = data
  | [], _, _, _, _, hret => by cases hret
  | r :: rs, cs, hint, hacc, h, hret => by
    cases hr : r.sel with
    | fail e =>
      obtain rfl := hint r List.mem_cons_self e hr
      rw [sendLoop, hr] at hret ⊢
      exact sendLoop_accepting l ha rs cs (fun r' hr' => hint r' (List.mem_cons_of_mem _ hr'))
        (fun r' hr' => hacc r' (List.mem_cons_of_mem _ hr')) h hret
    | ready rd w =>
      obtain ⟨hw, n, hwrote, hn⟩ := hacc r List.mem_cons_self
      have hwrite : roundWrites data r cs w c = some (.ok data.length) := by
        rw [roundWrites_ready h ha (hw rd w hr), hwrote, WriteRet.ret, Nat.min_eq_right hn]
      have hany : cs.any (fun c => isWhole data (roundWrites data r cs w c)) = true :=
        List.any_eq_true.2 ⟨c, (fd_of_clientsAt h).1, by rw [hwrite]; simp [isWhole]⟩
      rw [sendLoop_ready l data r rs cs rd w hr]
      simp only
      rw [if_pos (.inl hany)]
      refine ⟨?_, ?_⟩
      · rw [clientsAt_kept _ _ h, hwrite]
        simp [isBad]
      · rw [liveTo_roundFx _ _ h, hwrite]
        exact List.take_length

end SessionDaemon
end Zatch
