import Zatch.Names
/-!
# Chain — the chain of nested sessions in the environment (`pty.rs`, `session.rs`, `main.rs`)

`Pty::new` joins its socket's name to the chain with a `:`, which no name is kept from having; the readers split the
chain at every `:`.  The segments they see are those of the names, one after the other (`segments_of_nested`), so the
chain is read back as it was made exactly when no name has a `:` (`chain_read_back_iff`).
-/
namespace Zatch

/-- The variable that the child of `Pty::new` sets, from the one it finds. -/
def chainOf (prev : Option Str) (sockname : Str) : Str :=
  match prev with
  | some p => if p = [] then sockname else p ++ ':' :: sockname
  | none => sockname

/-- The variable inside the last of these sessions, each started inside the one before. -/
def nested (env : Option Str) (socknames : List Str) : Option Str :=
  socknames.foldl (fun env s => some (chainOf env s)) env

/-- `try_connect` refuses to attach to a session from within itself. -/
def refusesSelf (env : Option Str) (sockname : Str) : Bool :=
  match env with
  | some chain => decide (chain ≠ [] ∧ sockname ∈ chain.splitOn ':')
  | none => false

def resolveSessionName (session : Option Str) (env : Option Str) : Str :=
  match session with
  | some name => name
  | none =>
    match env with
    | some chain => if chain = [] then [] else lastSegment ':' chain
    | none => []

/-- What `cmd_current` prints; `none` when it says that this is no session. -/
def cmdCurrent (env : Option Str) : Option Str :=
  match env with
  | some chain => if chain = [] then none else some (lastSegment '/' (lastSegment ':' chain))
  | none => none

/-- The readers of the chain inside a session see the sessions it is nested in. -/
structure ReadBack (env : Option Str) (socknames : List Str) (innermost : Str) : Prop where
  refuses : ∀ t, refusesSelf env t = true ↔ t ∈ socknames
  resolves : resolveSessionName none env = innermost
  current : cmdCurrent env = some (lastSegment '/' innermost)

theorem nested_some : ∀ (socknames : List Str) (p : Str), p ≠ [] → ∃ chain, nested (some p) socknames = some chain ∧
    chain ≠ [] ∧ chain.splitOn ':' = p.splitOn ':' ++ socknames.flatMap (·.splitOn ':')
  | [], p, hp => ⟨p, rfl, hp, by rw [List.flatMap_nil, List.append_nil]⟩
  | s :: socknames, p, hp => by
    have hnext : chainOf (some p) s = p ++ ':' :: s := if_neg hp
    obtain ⟨chain, hchain, hne, hsplit⟩ := nested_some socknames (p ++ ':' :: s) (List.append_ne_nil_of_left_ne_nil hp _)
    refine ⟨chain, ?_, hne, ?_⟩
    · rw [nested, List.foldl_cons, hnext]
      exact hchain
    · rw [hsplit, List.splitOn_append_cons_self, List.flatMap_cons, List.append_assoc]

/-- **What the readers see of the chain**: the segments of the names, one name after the other. -/
theorem segments_of_nested {socknames : List Str} (hne : socknames ≠ []) (hall : ∀ s ∈ socknames, s ≠ []) :
    ∃ chain, nested none socknames = some chain ∧ chain ≠ [] ∧
      chain.splitOn ':' = socknames.flatMap (·.splitOn ':') := by
  cases socknames with
  | nil => exact absurd rfl hne
  | cons s socknames =>
    obtain ⟨chain, hchain, hchainNe, hsplit⟩ := nested_some socknames s (hall s List.mem_cons_self)
    exact ⟨chain, hchain, hchainNe, by rw [hsplit, List.flatMap_cons]⟩

/-- **The chain inside nested sessions is read back as it was made** exactly when no socket's name has a `:`. -/
theorem read_back_iff {socknames : List Str} {innermost : Str} (hall : ∀ s ∈ socknames ++ [innermost], s ≠ []) :
    ReadBack (nested none (socknames ++ [innermost])) (socknames ++ [innermost]) innermost ↔
      ∀ s ∈ socknames ++ [innermost], ':' ∉ s := by
  obtain ⟨chain, hchain, hne, hsplit⟩ := segments_of_nested (List.append_ne_nil_of_right_ne_nil socknames
    (List.cons_ne_nil innermost [])) hall
  rw [hchain]
  have hrefuses : ∀ t, refusesSelf (some chain) t = true ↔ t ∈ (socknames ++ [innermost]).flatMap (·.splitOn ':') := by
    intro t
    rw [← hsplit, refusesSelf, decide_eq_true_eq, and_iff_right hne]
  constructor
  · intro h s hs
    have hself := (hrefuses s).1 ((h.refuses s).2 hs)
    obtain ⟨s', -, hseg⟩ := List.mem_flatMap.1 hself
    exact not_mem_of_mem_splitOn hseg
  · intro hcolon
    have hwhole : (socknames ++ [innermost]).flatMap (·.splitOn ':') = socknames ++ [innermost] := by
      rw [List.flatMap_congr (fun s hs => List.splitOn_eq_singleton (hcolon s hs)), List.flatMap_singleton']
    have hlast : lastSegment ':' chain = innermost := by
      rw [lastSegment, hsplit, hwhole, List.getLast?_concat, Option.getD_some]
    refine ⟨fun t => by rw [hrefuses, hwhole], ?_, ?_⟩
    · simp only [resolveSessionName, if_neg hne, hlast]
    · simp only [cmdCurrent, if_neg hne, hlast]

/-- A session of a nest: what its names depend on, and the name it was given. -/
structure Nested where
  env : Env
  name : Str
deriving DecidableEq, Repr

def Nested.sockname (progname : Str) (s : Nested) : Str := expandSockname s.env progname s.name

/-- **Nested sessions under any names, in any homes**: inside the innermost one the chain names each of them, and nothing
else, exactly when no socket's name has a `:`. -/
theorem chain_read_back_iff (progname : Str) (outer : List Nested) (inner : Nested) :
    ReadBack (nested none (outer.map (·.sockname progname) ++ [inner.sockname progname]))
      (outer.map (·.sockname progname) ++ [inner.sockname progname]) (inner.sockname progname) ↔
    ∀ s ∈ outer ++ [inner], ':' ∉ s.sockname progname := by
  have hnames : outer.map (·.sockname progname) ++ [inner.sockname progname] =
      (outer ++ [inner]).map (·.sockname progname) := by rw [List.map_append, List.map_singleton]
  rw [read_back_iff, hnames, List.forall_mem_map]
  rw [hnames]
  intro s hs
  obtain ⟨x, -, rfl⟩ := List.mem_map.1 hs
  exact expandSockname_ne_nil _ _ _

/-- Inside the session `a:b`, `kill` without a name would go to `b`. -/
theorem chain_misreads_colon : ¬ ∀ (progname : Str) (outer : List Nested) (inner : Nested),
    ReadBack (nested none (outer.map (·.sockname progname) ++ [inner.sockname progname]))
      (outer.map (·.sockname progname) ++ [inner.sockname progname]) (inner.sockname progname) := by
  intro h
  have hres := (h "ztch".toList [] ⟨⟨some "/home/u".toList, 100⟩, "a:b".toList⟩).resolves
  revert hres
  decide

end Zatch
