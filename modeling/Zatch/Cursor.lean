import Zatch.Flags
/-!
# Cursor — a client's replay cursor and the ring that moves under it

A client keeps the cursor of its replay from one turn to the next, while the ring is appended to.  The cursor is always a
slot of the ring and no more is pending than the ring holds, since the ring's length never shrinks (`Ring.len_le_append`);
so the raw write of `drain` stays inside the buffer (`replay_cursors_in_bounds`).
-/
namespace Zatch

open Machine (run Along)

theorem Ring.len_le_append (r : Ring) (data : List Byte) : r.len ≤ (r.append data).len :=
  Nat.le_min.2 ⟨Nat.le_add_right _ _, r.len_le⟩

theorem ReplayState.drain_remaining_le (r : Ring) (ws : List WriteRet) {rs : ReplayState} (h : rs.head < scrollbackSize) :
    (drain r.toScrollback rs ws).rs.remaining ≤ rs.remaining := by
  rw [(drain_spec r ws rs h).2.2.1]
  exact Nat.sub_le _ _

namespace SessionDaemon

theorem len_le_act (d : SessionDaemon) (a : Act) : d.scrollback.len ≤ (d.act a).1.scrollback.len := by
  rw [act_scrollback]
  cases a with
  | output data took rounds => exact d.scrollback.len_le_append data
  | _ => exact Nat.le_refl _

/-- **In a reachable state no client waits for more than the ring holds.** -/
theorem Reachable.remaining_le {d : SessionDaemon} {tr : List Effect} (hd : Reachable d tr) :
    ∀ c ∈ d.clients, c.replayRemaining ≤ d.scrollback.len := by
  induction hd with
  | new log s g h => exact fun c hc => by cases hc
  | @step d tr a hd ha ih =>
    intro c' hc'
    refine Nat.le_trans ?_ (len_le_act d a)
    cases act_from hc' with
    | kept hc => exact ih c' hc
    | accepted => exact Nat.zero_le _
    | @read i p c c' hi hn =>
      rcases Client.next_cursor hn with ⟨-, hrem⟩ | ⟨-, hrem⟩
      · rw [hrem]
        exact ih c (List.mem_of_getElem? hi)
      · rw [hrem]
        exact ReplayState.drain_remaining_le d.scrollback p.writes d.scrollback.head_lt
    | drained hc hrem =>
      exact Nat.le_trans (ReplayState.drain_remaining_le d.scrollback _ (hd.cursor_lt _ hc)) (ih _ hc)

/-- **Replay cursors, in every reachable state**: a client that waits for its replay has its cursor inside the ring and
waits for no more than the ring holds; so a drain, of a client's replay or of a new one, reads only the ring and never takes
more from what is pending than there is. -/
theorem replay_cursors_in_bounds {d : SessionDaemon} {tr : List Effect} (hd : Reachable d tr) :
    (∀ c ∈ d.clients, 0 < c.replayRemaining → c.replayHead < scrollbackSize ∧
      c.replayRemaining ≤ d.scrollback.len) ∧
    d.scrollback.len ≤ scrollbackSize ∧ scrollbackSize = d.scrollback.buf.length ∧
    (∀ c ∈ d.clients, 0 < c.replayRemaining → ∀ ws,
      ReplayState.drainChecked d.scrollback.toScrollback ⟨c.replayHead, c.replayRemaining⟩ ws =
        some (ReplayState.drain d.scrollback.toScrollback ⟨c.replayHead, c.replayRemaining⟩ ws)) ∧
    ∀ ws, ReplayState.drainChecked d.scrollback.toScrollback ⟨d.scrollback.head, d.scrollback.len⟩ ws =
      some (ReplayState.drain d.scrollback.toScrollback ⟨d.scrollback.head, d.scrollback.len⟩ ws) := by
  refine ⟨fun c hc _ => ⟨hd.cursor_lt c hc, hd.remaining_le c hc⟩, d.scrollback.len_le, d.scrollback.buf_length.symm, ?_, ?_⟩
  · exact fun c hc _ ws => ReplayState.drainChecked_eq d.scrollback ws _ (hd.cursor_lt c hc)
  · exact fun ws => ReplayState.drainChecked_eq d.scrollback ws _ d.scrollback.head_lt

theorem partlyReplayed_possible : Along act Possible fresh partlyReplayed := by decide +kernel

theorem partlyReplayed_in_bounds : 1 < scrollbackSize ∧ 2 ≤ (run act fresh partlyReplayed).1.scrollback.len :=
  (replay_cursors_in_bounds (fresh_reachable.of_run partlyReplayed_possible)).1 ⟨5, false, 1, 2, 0⟩ (by decide +kernel)
    (by decide)

end SessionDaemon

end Zatch
