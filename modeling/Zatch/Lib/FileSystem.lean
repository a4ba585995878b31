import Mathlib.Data.List.Basic
/-!
# FileSystem — names, files, symbolic links

A file system is a table of names and a table of files: a name gives the number of a file, so two names may be one file,
and a file that is a symbolic link gives another name.  `resolve` follows links, as far as the system does; `unlink`,
`bind` and `truncate` and the like are what the system calls do, without the errors that are not the file's own.

Two facts go through every run of these operations.  A file's number is not given out again, so a name that has an old
file has had it all along; and the count of a file's truncations only grows.  `After` is both.
-/
namespace FileSystem

/-- What a file is. -/
inductive Kind (ν β : Type)
  | socket (listening : Bool)
  | regular (content : List β)
  | directory
  | other
  | link (target : ν)
deriving DecidableEq, Repr

def Kind.isSocket {ν β : Type} : Kind ν β → Bool
  | .socket _ => true
  | _ => false

def Kind.isDirectory {ν β : Type} : Kind ν β → Bool
  | .directory => true
  | _ => false

/-- The kind of file, its content left out. -/
def Kind.blank {ν β : Type} : Kind ν β → Kind ν β
  | .regular _ => .regular []
  | k => k

inductive Error
  | noEntry
  | loop
  | isDirectory
  | notPermitted
  | isSocket
  | inUse
deriving DecidableEq, Repr

structure Fs (ν β : Type) where
  dir : ν → Option Nat
  node : Nat → Kind ν β
  next : Nat
  /-- the names that may not be removed -/
  frozen : ν → Bool
  /-- history: how often each file was truncated -/
  cuts : Nat → Nat
  dir_lt : ∀ p i, dir p = some i → i < next

namespace Fs

variable {ν β : Type}

/-- The name at the end of the links, at most `fuel` names on. -/
def resolve (fs : Fs ν β) : Nat → ν → Except Error ν
  | 0, _ => .error .loop
  | fuel + 1, p =>
    match (fs.dir p).map fs.node with
    | some (.link target) => fs.resolve fuel target
    | _ => .ok p

def symlinkMax : Nat := 40

def inode (fs : Fs ν β) (p : ν) : Except Error Nat :=
  match fs.resolve (symlinkMax + 1) p with
  | .ok q => match fs.dir q with
    | some i => .ok i
    | none => .error .noEntry
  | .error e => .error e

def stat (fs : Fs ν β) (p : ν) : Except Error (Kind ν β) := (fs.inode p).map fs.node

section
variable [DecidableEq ν]

def drop (fs : Fs ν β) (p : ν) : Fs ν β where
  dir q := if q = p then none else fs.dir q
  node := fs.node
  next := fs.next
  frozen := fs.frozen
  cuts := fs.cuts
  dir_lt q i h := by
    split at h
    · cases h
    · exact fs.dir_lt q i h

def make (fs : Fs ν β) (p : ν) (k : Kind ν β) : Fs ν β where
  dir q := if q = p then some fs.next else fs.dir q
  node i := if i = fs.next then k else fs.node i
  next := fs.next + 1
  frozen := fs.frozen
  cuts := fs.cuts
  dir_lt q i h := by
    split at h
    · cases h
      exact Nat.lt_succ_self _
    · exact Nat.lt_succ_of_lt (fs.dir_lt q i h)

/-- A name that `unlink` removes. -/
def Removable (fs : Fs ν β) (p : ν) : Prop :=
  ∃ i, fs.dir p = some i ∧ (fs.node i).isDirectory = false ∧ fs.frozen p = false

/-- `unlink(2)`: the name itself, whatever it links to. -/
def unlink (fs : Fs ν β) (p : ν) : Fs ν β × Except Error Unit :=
  match fs.dir p with
  | none => (fs, .error .noEntry)
  | some i =>
    if (fs.node i).isDirectory then (fs, .error .isDirectory)
    else if fs.frozen p then (fs, .error .notPermitted)
    else (fs.drop p, .ok ())

/-- `bind(2)`, which follows no link. -/
def bind (fs : Fs ν β) (p : ν) : Except Error (Fs ν β) :=
  match fs.dir p with
  | some _ => .error .inUse
  | none => .ok (fs.make p (.socket false))

/-- `open(2)` for reading and writing, which makes the file where it may. -/
def openFile (fs : Fs ν β) (create : Bool) (p : ν) : Except Error (Fs ν β × Nat) :=
  match fs.resolve (symlinkMax + 1) p with
  | .error e => .error e
  | .ok q =>
    match fs.dir q with
    | some i =>
      match fs.node i with
      | .socket _ => .error .isSocket
      | .directory => .error .isDirectory
      | _ => .ok (fs, i)
    | none => if create then .ok (fs.make q (.regular []), fs.next) else .error .noEntry

end

def setNode (fs : Fs ν β) (i : Nat) (k : Kind ν β) : Fs ν β :=
  { fs with node := fun j => if j = i then k else fs.node j }

/-- What has become of a regular file's content; any other file has none. -/
def rewrite (fs : Fs ν β) (i : Nat) (f : List β → List β) : Fs ν β :=
  match fs.node i with
  | .regular content => fs.setNode i (.regular (f content))
  | _ => fs

/-- A regular file truncated, with what is then written to it. -/
def truncate (fs : Fs ν β) (i : Nat) (f : List β → List β) : Fs ν β :=
  match fs.node i with
  | .regular content =>
    { fs.setNode i (.regular (f content)) with cuts := fun j => if j = i then fs.cuts j + 1 else fs.cuts j }
  | _ => fs

/-- A regular file truncated and written again, if there is something to write that it is not already. -/
def prune [DecidableEq β] (fs : Fs ν β) (i : Nat) (f : List β → List β) : Fs ν β :=
  match fs.node i with
  | .regular content => if f content = content then fs else fs.truncate i f
  | _ => fs

section
variable [DecidableEq ν] {fs : Fs ν β} {p q : ν}

omit [DecidableEq ν] in
theorem removable_iff {i : Nat} (hp : fs.dir p = some i) :
    fs.Removable p ↔ (fs.node i).isDirectory = false ∧ fs.frozen p = false := by
  constructor
  · rintro ⟨j, hj, h⟩
    rw [hp, Option.some_inj] at hj
    exact hj ▸ h
  · exact fun h => ⟨i, hp, h⟩

@[simp] theorem make_dir_self (fs : Fs ν β) (p : ν) (k : Kind ν β) : (fs.make p k).dir p = some fs.next := if_pos rfl

@[simp] theorem make_node_next (fs : Fs ν β) (p : ν) (k : Kind ν β) : (fs.make p k).node fs.next = k := if_pos rfl

omit [DecidableEq ν] in
@[simp] theorem setNode_node_self (fs : Fs ν β) (i : Nat) (k : Kind ν β) : (fs.setNode i k).node i = k := if_pos rfl

omit [DecidableEq ν] in
theorem setNode_node_of_ne (fs : Fs ν β) {i j : Nat} (k : Kind ν β) (h : j ≠ i) : (fs.setNode i k).node j = fs.node j :=
  if_neg h

/-- What becomes of a new file is what it might have been made as. -/
theorem make_setNode (fs : Fs ν β) (p : ν) (k k' : Kind ν β) : (fs.make p k).setNode fs.next k' = fs.make p k' := by
  have hnode : ((fs.make p k).setNode fs.next k').node = (fs.make p k').node := by
    funext j
    by_cases hj : j = fs.next <;> simp [setNode, make, hj]
  simp only [setNode, make] at hnode ⊢
  rw [hnode]

@[simp] theorem drop_dir_self (fs : Fs ν β) (p : ν) : (fs.drop p).dir p = none := if_pos rfl

theorem unlink_of_removable (h : fs.Removable p) : fs.unlink p = (fs.drop p, .ok ()) := by
  obtain ⟨i, hp, hdir, hfrozen⟩ := h
  simp [unlink, hp, hdir, hfrozen]

theorem unlink_error (h : ¬ fs.Removable p) : ∃ e, fs.unlink p = (fs, .error e) := by
  unfold unlink
  split
  · exact ⟨_, rfl⟩
  · rename_i i hp
    by_cases hdir : (fs.node i).isDirectory = true
    · rw [if_pos hdir]
      exact ⟨_, rfl⟩
    · rw [if_neg hdir]
      by_cases hfrozen : fs.frozen p = true
      · rw [if_pos hfrozen]
        exact ⟨_, rfl⟩
      · exact absurd ⟨i, hp, Bool.eq_false_iff.2 hdir, Bool.eq_false_iff.2 hfrozen⟩ h

theorem unlink_of_not_removable (h : ¬ fs.Removable p) : (fs.unlink p).1 = fs := by
  obtain ⟨e, he⟩ := unlink_error h
  rw [he]

theorem unlink_fst (fs : Fs ν β) (p : ν) : (fs.unlink p).1 = fs ∨ (fs.unlink p).1 = fs.drop p := by
  by_cases h : fs.Removable p
  · rw [unlink_of_removable h]
    exact .inr rfl
  · exact .inl (unlink_of_not_removable h)

theorem unlink_dir_of_ne (h : q ≠ p) : (fs.unlink p).1.dir q = fs.dir q := by
  rcases unlink_fst fs p with hu | hu <;> rw [hu]
  exact if_neg h

/-- **A name that has a file is gone after `unlink` exactly when it is removable.** -/
theorem unlink_dir_eq_iff {i : Nat} (hp : fs.dir p = some i) : (fs.unlink p).1.dir p = some i ↔ ¬ fs.Removable p := by
  constructor
  · intro h hrem
    rw [unlink_of_removable hrem] at h
    simp [drop] at h
  · intro h
    rw [unlink_of_not_removable h, hp]

theorem unlink_dir_eq_none_iff : (fs.unlink p).1.dir p = none ↔ fs.dir p = none ∨ fs.Removable p := by
  by_cases h : fs.Removable p
  · rw [unlink_of_removable h]
    exact iff_of_true (if_pos rfl) (.inr h)
  · rw [unlink_of_not_removable h]
    exact (or_iff_left h).symm

/-- **What an open can do**: it opens a file that was there, or it makes one at the end of the links. -/
theorem openFile_ok {create : Bool} {i : Nat} {fs' : Fs ν β} (h : fs.openFile create p = .ok (fs', i)) :
    (fs' = fs ∧ fs.inode p = .ok i) ∨
      create = true ∧ i = fs.next ∧
        ∃ q, fs.resolve (symlinkMax + 1) p = .ok q ∧ fs.dir q = none ∧ fs' = fs.make q (.regular []) := by
  unfold openFile at h
  unfold inode
  split at h
  · cases h
  · rename_i q hq
    rw [hq]
    split at h
    · rename_i j hj
      simp only [hj]
      split at h <;> cases h
      exact .inl ⟨rfl, rfl⟩
    · rename_i hfree
      split at h <;> cases h
      exact .inr ⟨‹_›, rfl, q, rfl, hfree, rfl⟩

omit [DecidableEq ν] in
theorem inode_eq_iff {i : Nat} :
    fs.inode p = .ok i ↔ ∃ q, fs.resolve (symlinkMax + 1) p = .ok q ∧ fs.dir q = some i := by
  unfold inode
  split
  · rename_i q hq
    cases hdir : fs.dir q <;> simp [hq, hdir]
  · rename_i e he
    simp [he]

omit [DecidableEq ν] in
/-- A name that leads to a file that is no directory is itself one of such a file. -/
theorem dir_of_inode {i : Nat} (h : fs.inode p = .ok i) (hi : (fs.node i).isDirectory = false) :
    ∃ k, fs.dir p = some k ∧ (fs.node k).isDirectory = false := by
  obtain ⟨q, hq, hdir⟩ := inode_eq_iff.1 h
  rw [resolve] at hq
  cases hp : fs.dir p with
  | none =>
    rw [hp] at hq
    cases hq
    rw [hp] at hdir
    cases hdir
  | some k =>
    refine ⟨k, rfl, ?_⟩
    rw [hp, Option.map_some] at hq
    split at hq
    · rename_i target hk
      rw [Option.some_inj.1 hk]
      rfl
    · cases hq
      rw [hp, Option.some_inj] at hdir
      rw [hdir]
      exact hi

omit [DecidableEq ν] in
theorem stat_of_socket {i : Nat} {listening : Bool} (hp : fs.dir p = some i) (hi : fs.node i = .socket listening) :
    fs.stat p = .ok (.socket listening) := by
  have hinode : fs.inode p = .ok i := by
    rw [inode_eq_iff]
    exact ⟨p, by simp [resolve, hp, hi], hp⟩
  rw [stat, hinode]
  exact congrArg Except.ok hi

theorem openFile_of_regular {create : Bool} {i : Nat} {content : List β} (hi : fs.inode p = .ok i)
    (hreg : fs.node i = .regular content) : fs.openFile create p = .ok (fs, i) := by
  obtain ⟨q, hq, hdir⟩ := inode_eq_iff.1 hi
  simp [openFile, hq, hdir, hreg]

theorem openFile_dir {create : Bool} {i j : Nat} {fs' : Fs ν β} (h : fs.openFile create q = .ok (fs', i))
    (hp : fs.dir p = some j) : fs'.dir p = some j := by
  obtain ⟨rfl, -⟩ | ⟨-, -, r, -, hfree, rfl⟩ := openFile_ok h
  · exact hp
  · exact (if_neg (fun hpr => by rw [hpr, hfree] at hp; cases hp)).trans hp

/-- An open that may make a file makes it at a free name exactly when the links end there. -/
theorem openFile_dir_of_free {i : Nat} {fs' : Fs ν β} (h : fs.openFile true q = .ok (fs', i)) (hp : fs.dir p = none) :
    fs'.dir p = none ↔ fs.resolve (symlinkMax + 1) q ≠ .ok p := by
  obtain ⟨rfl, hi⟩ | ⟨-, -, r, hr, hfree, rfl⟩ := openFile_ok h
  · obtain ⟨r, hr, hdir⟩ := inode_eq_iff.1 hi
    refine ⟨fun _ hq => ?_, fun _ => hp⟩
    rw [hr, Except.ok.injEq] at hq
    rw [hq, hp] at hdir
    cases hdir
  · rw [hr, ne_eq, Except.ok.injEq]
    by_cases hpr : p = r
    · simp [make, hpr]
    · simp [make, hpr, Ne.symm hpr, hp]

end

/-- A regular file that stays one is at the end of the same links. -/
theorem setNode_resolve {fs : Fs ν β} {i : Nat} {content : List β} (hi : fs.node i = .regular content)
    (content' : List β) : ∀ (fuel : Nat) (p : ν), (fs.setNode i (.regular content')).resolve fuel p = fs.resolve fuel p
  | 0, _ => rfl
  | fuel + 1, p => by
    have hdir : (fs.setNode i (.regular content')).dir p = fs.dir p := rfl
    rw [resolve, resolve, hdir]
    cases hp : fs.dir p with
    | none => rfl
    | some j =>
      by_cases hj : j = i
      · rw [hj, Option.map_some, Option.map_some, setNode_node_self, hi]
      · rw [Option.map_some, Option.map_some, setNode_node_of_ne fs _ hj]
        cases fs.node j with
        | link target => exact setNode_resolve hi content' fuel target
        | _ => rfl

theorem setNode_inode {fs : Fs ν β} {i : Nat} {content : List β} (hi : fs.node i = .regular content)
    (content' : List β) (p : ν) : (fs.setNode i (.regular content')).inode p = fs.inode p := by
  unfold inode
  rw [setNode_resolve hi]
  rfl

section
variable [DecidableEq ν] {fs fs' : Fs ν β} {p q : ν}

/-- A file made at the end of the links is what they lead to. -/
theorem make_resolve (hq : fs.dir q = none) (content : List β) : ∀ (fuel : Nat) (p : ν), fs.resolve fuel p = .ok q →
    (fs.make q (.regular content)).resolve fuel p = .ok q
  | 0, _, h => by cases h
  | fuel + 1, p, h => by
    rw [resolve] at h ⊢
    by_cases hpq : p = q
    · rw [hpq, make_dir_self, Option.map_some, make_node_next]
    · have hdir : (fs.make q (.regular content)).dir p = fs.dir p := if_neg hpq
      rw [hdir]
      cases hp : fs.dir p with
      | none =>
        rw [hp] at h
        cases h
        exact absurd rfl hpq
      | some j =>
        have hj : (fs.make q (.regular content)).node j = fs.node j := if_neg (Nat.ne_of_lt (fs.dir_lt p j hp))
        rw [hp, Option.map_some] at h
        rw [Option.map_some, hj]
        cases hk : fs.node j with
        | link target =>
          rw [hk] at h
          exact make_resolve hq content fuel target h
        | _ =>
          rw [hk] at h
          exact h

/-- **What is opened** is what the name leads to then. -/
theorem inode_of_openFile {create : Bool} {i : Nat} (h : fs.openFile create p = .ok (fs', i)) : fs'.inode p = .ok i := by
  obtain ⟨rfl, hi⟩ | ⟨-, rfl, q, hq, hfree, rfl⟩ := openFile_ok h
  · exact hi
  · exact inode_eq_iff.2 ⟨q, make_resolve hfree [] _ _ hq, make_dir_self _ _ _⟩

end

/-- What is at a name, a link itself and not what it leads to, and of a regular file not its content. -/
def look (fs : Fs ν β) (p : ν) : Option (Kind ν β) := (fs.dir p).map (fun i => (fs.node i).blank)

theorem look_eq_none_iff {fs : Fs ν β} {p : ν} : fs.look p = none ↔ fs.dir p = none := Option.map_eq_none_iff

theorem look_eq_link_iff {fs : Fs ν β} {p target : ν} :
    fs.look p = some (.link target) ↔ ∃ i, fs.dir p = some i ∧ fs.node i = .link target := by
  have hblank : ∀ k : Kind ν β, k.blank = .link target ↔ k = .link target := by
    intro k
    cases k <;> simp [Kind.blank]
  simp only [look, Option.map_eq_some_iff, hblank]

theorem resolve_of_not_link {fs : Fs ν β} {p : ν} (h : ∀ q, fs.look p ≠ some (.link q)) (fuel : Nat) :
    fs.resolve (fuel + 1) p = .ok p := by
  rw [resolve]
  cases hp : fs.dir p with
  | none => rfl
  | some i =>
    rw [Option.map_some]
    cases hnode : fs.node i with
    | link q =>
      refine absurd ?_ (h q)
      rw [look, hp, Option.map_some, hnode]
      rfl
    | _ => rfl

theorem resolve_of_link {fs : Fs ν β} {p target : ν} (h : fs.look p = some (.link target)) (fuel : Nat) :
    fs.resolve (fuel + 1) p = fs.resolve fuel target := by
  obtain ⟨i, hi, hnode⟩ := look_eq_link_iff.1 h
  rw [resolve, hi, Option.map_some, hnode]

theorem setNode_look {fs : Fs ν β} {i : Nat} {content : List β} (hi : fs.node i = .regular content)
    (content' : List β) (p : ν) : (fs.setNode i (.regular content')).look p = fs.look p := by
  unfold look
  apply congrArg (fun f => (fs.dir p).map f)
  funext j
  by_cases hj : j = i
  · rw [hj, setNode_node_self, hi]
    rfl
  · rw [setNode_node_of_ne fs _ hj]

/-- What one state may become in another: numbers are not given out twice, truncations are counted, and no link is new. -/
structure After (fs fs' : Fs ν β) : Prop where
  next_le : fs.next ≤ fs'.next
  dir_of_old : ∀ p i, fs'.dir p = some i → i < fs.next → fs.dir p = some i
  socket_of_old : ∀ i b, i < fs.next → fs.node i = .socket b → fs'.node i = .socket b
  isDirectory_of_old : ∀ i, i < fs.next → (fs'.node i).isDirectory = (fs.node i).isDirectory
  cuts_le : ∀ i, fs.cuts i ≤ fs'.cuts i
  frozen_eq : fs'.frozen = fs.frozen
  link_of_link : ∀ p target, fs'.look p = some (.link target) → fs.look p = some (.link target)

theorem After.refl (fs : Fs ν β) : After fs fs where
  next_le := Nat.le_refl _
  dir_of_old _ _ h _ := h
  socket_of_old _ _ _ h := h
  isDirectory_of_old _ _ := rfl
  cuts_le _ := Nat.le_refl _
  frozen_eq := rfl
  link_of_link _ _ h := h

theorem After.trans {fs fs' fs'' : Fs ν β} (h : After fs fs') (h' : After fs' fs'') : After fs fs'' where
  next_le := Nat.le_trans h.next_le h'.next_le
  dir_of_old p i hp hi := h.dir_of_old p i (h'.dir_of_old p i hp (Nat.lt_of_lt_of_le hi h.next_le)) hi
  socket_of_old i b hi hb := h'.socket_of_old i b (Nat.lt_of_lt_of_le hi h.next_le) (h.socket_of_old i b hi hb)
  isDirectory_of_old i hi :=
    (h'.isDirectory_of_old i (Nat.lt_of_lt_of_le hi h.next_le)).trans (h.isDirectory_of_old i hi)
  cuts_le i := Nat.le_trans (h.cuts_le i) (h'.cuts_le i)
  frozen_eq := h'.frozen_eq.trans h.frozen_eq
  link_of_link p target hp := h.link_of_link p target (h'.link_of_link p target hp)

/-- The file has no new name and no link is new. -/
structure Led (fs fs' : Fs ν β) (i : Nat) : Prop where
  dir : ∀ p, fs'.dir p = some i → fs.dir p = some i
  link : ∀ p target, fs'.look p = some (.link target) → fs.look p = some (.link target)

theorem Led.refl (fs : Fs ν β) (i : Nat) : Led fs fs i := ⟨fun _ h => h, fun _ _ h => h⟩

theorem Led.trans {fs fs' fs'' : Fs ν β} {i : Nat} (h : Led fs fs' i) (h' : Led fs' fs'' i) : Led fs fs'' i where
  dir p hp := h.dir p (h'.dir p hp)
  link p target hp := h.link p target (h'.link p target hp)

/-- A name that leads where it led may be removed when it could be. -/
theorem After.removable_iff {fs fs' : Fs ν β} (h : After fs fs') (hdir : fs'.dir = fs.dir) {p : ν} :
    fs'.Removable p ↔ fs.Removable p := by
  unfold Removable
  rw [hdir, h.frozen_eq]
  refine exists_congr (fun i => and_congr_right (fun hi => ?_))
  rw [h.isDirectory_of_old i (fs.dir_lt p i hi)]

theorem After.led {fs fs' : Fs ν β} (h : After fs fs') {i : Nat} (hi : i < fs.next) : Led fs fs' i where
  dir p hp := h.dir_of_old p i hp hi
  link := h.link_of_link

/-- **What leads to a file has led to it**, when it has no new name and no link is new. -/
theorem Led.inode {fs fs' : Fs ν β} {i : Nat} (h : Led fs fs' i) (hi : ∀ target, fs.node i ≠ .link target) {p : ν}
    (hp : fs'.inode p = .ok i) : fs.inode p = .ok i := by
  have hresolve : ∀ (fuel : Nat) (p q : ν), fs'.resolve fuel p = .ok q → fs'.dir q = some i → fs.resolve fuel p = .ok q := by
    intro fuel
    induction fuel with
    | zero =>
      intro p q hq _
      cases hq
    | succ fuel ih =>
      intro p q hq hqi
      by_cases hlink : ∃ target, fs'.look p = some (.link target)
      · obtain ⟨target, ht⟩ := hlink
        rw [resolve_of_link ht] at hq
        rw [resolve_of_link (h.link p target ht)]
        exact ih target q hq hqi
      · rw [resolve_of_not_link (fun target ht => hlink ⟨target, ht⟩)] at hq
        obtain rfl := Except.ok.inj hq
        refine resolve_of_not_link (fun target ht => ?_) fuel
        obtain ⟨j, hj, hnode⟩ := look_eq_link_iff.1 ht
        rw [h.dir p hqi, Option.some_inj] at hj
        exact hi target (hj ▸ hnode)
  obtain ⟨q, hq, hqi⟩ := inode_eq_iff.1 hp
  exact inode_eq_iff.2 ⟨q, hresolve _ p q hq hqi, h.dir q hqi⟩

section
variable [DecidableEq ν]

theorem drop_after (fs : Fs ν β) (p : ν) : After fs (fs.drop p) where
  next_le := Nat.le_refl _
  dir_of_old q i h _ := by
    simp only [drop] at h
    split at h
    · cases h
    · exact h
  socket_of_old _ _ _ h := h
  isDirectory_of_old _ _ := rfl
  cuts_le _ := Nat.le_refl _
  frozen_eq := rfl
  link_of_link q target h := by
    simp only [look_eq_link_iff, drop] at h ⊢
    obtain ⟨i, hi, hnode⟩ := h
    split at hi
    · cases hi
    · exact ⟨i, hi, hnode⟩

theorem unlink_after (fs : Fs ν β) (p : ν) : After fs (fs.unlink p).1 := by
  rcases unlink_fst fs p with h | h <;> rw [h]
  · exact .refl fs
  · exact drop_after fs p

theorem make_look (fs : Fs ν β) (p q : ν) (k : Kind ν β) :
    (fs.make p k).look q = if q = p then some k.blank else fs.look q := by
  unfold look
  by_cases hq : q = p
  · rw [hq, make_dir_self, Option.map_some, make_node_next, if_pos rfl]
  · have hdir : (fs.make p k).dir q = fs.dir q := if_neg hq
    rw [if_neg hq, hdir]
    cases h : fs.dir q with
    | none => rfl
    | some i =>
      have hnode : (fs.make p k).node i = fs.node i := if_neg (Nat.ne_of_lt (fs.dir_lt q i h))
      rw [Option.map_some, Option.map_some, hnode]

theorem make_after (fs : Fs ν β) (p : ν) {k : Kind ν β} (hk : ∀ target, k ≠ .link target) : After fs (fs.make p k) where
  next_le := Nat.le_succ _
  dir_of_old q i h hi := by
    simp only [make] at h
    split at h
    · cases h
      exact absurd hi (Nat.lt_irrefl _)
    · exact h
  socket_of_old i b hi h := by
    rw [← h]
    exact if_neg (Nat.ne_of_lt hi)
  isDirectory_of_old i hi := congrArg Kind.isDirectory (if_neg (Nat.ne_of_lt hi))
  cuts_le _ := Nat.le_refl _
  frozen_eq := rfl
  link_of_link q target h := by
    simp only [look_eq_link_iff, make] at h ⊢
    obtain ⟨i, hi, hnode⟩ := h
    split at hi
    · obtain rfl := Option.some.inj hi
      exact absurd (hnode.symm.trans (if_pos rfl)).symm (hk target)
    · exact ⟨i, hi, (if_neg (Nat.ne_of_lt (fs.dir_lt q i hi))).symm.trans hnode⟩

theorem openFile_after {fs fs' : Fs ν β} {create : Bool} {p : ν} {i : Nat} (h : fs.openFile create p = .ok (fs', i)) :
    After fs fs' := by
  unfold openFile at h
  split at h
  · cases h
  · split at h
    · split at h <;> cases h
      exact .refl fs
    · split at h <;> cases h
      exact make_after _ _ (fun _ h => by cases h)

end

theorem setNode_after {fs : Fs ν β} {i : Nat} {content : List β} (hi : fs.node i = .regular content)
    (content' : List β) : After fs (fs.setNode i (.regular content')) where
  next_le := Nat.le_refl _
  dir_of_old _ _ h _ := h
  socket_of_old j b _ h := by
    rw [← h]
    refine if_neg (fun hj => ?_)
    rw [hj, hi] at h
    cases h
  isDirectory_of_old j _ := by
    by_cases hj : j = i
    · simp [setNode, hj, hi, Kind.isDirectory]
    · simp [setNode, hj]
  cuts_le _ := Nat.le_refl _
  frozen_eq := rfl
  link_of_link p target h := by rwa [setNode_look hi] at h

theorem rewrite_after (fs : Fs ν β) (i : Nat) (f : List β → List β) : After fs (fs.rewrite i f) := by
  unfold rewrite
  split
  · exact setNode_after ‹_› _
  · exact .refl fs

theorem truncate_after (fs : Fs ν β) (i : Nat) (f : List β → List β) : After fs (fs.truncate i f) := by
  unfold truncate
  split
  · rename_i content hi
    have h := setNode_after hi (f content)
    refine ⟨h.next_le, h.dir_of_old, h.socket_of_old, h.isDirectory_of_old, fun j => ?_, rfl, h.link_of_link⟩
    dsimp only
    split <;> omega
  · exact .refl fs

@[simp] theorem rewrite_dir (fs : Fs ν β) (i : Nat) (f : List β → List β) : (fs.rewrite i f).dir = fs.dir := by
  unfold rewrite
  split <;> rfl

theorem rewrite_eq {fs : Fs ν β} {i : Nat} {content : List β} (hi : fs.node i = .regular content)
    (f : List β → List β) : fs.rewrite i f = fs.setNode i (.regular (f content)) := by
  rw [rewrite, hi]

theorem rewrite_node_eq_iff (fs : Fs ν β) (i : Nat) (f : List β → List β) (content : List β) :
    (fs.rewrite i f).node i = .regular content ↔ ∃ old, fs.node i = .regular old ∧ f old = content := by
  unfold rewrite
  split
  · rename_i old hi
    simp [setNode, hi]
  · rename_i hreg
    refine ⟨fun h => absurd h (hreg content), fun h => ?_⟩
    obtain ⟨old, hold, -⟩ := h
    exact absurd hold (hreg old)

@[simp] theorem rewrite_cuts (fs : Fs ν β) (i : Nat) (f : List β → List β) : (fs.rewrite i f).cuts = fs.cuts := by
  unfold rewrite
  split <;> rfl

@[simp] theorem truncate_dir (fs : Fs ν β) (i : Nat) (f : List β → List β) : (fs.truncate i f).dir = fs.dir := by
  unfold truncate
  split <;> rfl

/-- **A truncation is counted** for the file it is of, when that is regular, and for no other. -/
theorem truncate_cuts_eq_iff (fs : Fs ν β) (i j : Nat) (f : List β → List β) :
    (fs.truncate i f).cuts j = fs.cuts j ↔ ¬ (i = j ∧ ∃ content, fs.node i = .regular content) := by
  unfold truncate
  split
  · rename_i content hi
    by_cases hij : j = i
    · simp [hij, hi]
    · simp [hij, Ne.symm hij]
  · rename_i hreg
    refine ⟨fun _ h => ?_, fun _ => rfl⟩
    obtain ⟨-, content, hc⟩ := h
    exact hreg content hc

section
variable [DecidableEq ν] {fs fs' : Fs ν β} {create : Bool} {p : ν}

/-- **A file opened and then cut**, if it is a regular file with `P`: of the files that were there, what is cut is the one
that the links lead to. -/
theorem openFile_cuts_eq_iff {i j : Nat} (hopen : fs.openFile create p = .ok (fs', i)) (hj : j < fs.next)
    {fs'' : Fs ν β} {P : List β → Prop}
    (hop : fs''.cuts j = fs'.cuts j ↔ ¬ (i = j ∧ ∃ content, fs'.node i = .regular content ∧ P content)) :
    fs''.cuts j = fs.cuts j ↔ ¬ (fs.inode p = .ok j ∧ ∃ content, fs.node j = .regular content ∧ P content) := by
  obtain ⟨rfl, hi⟩ | ⟨-, rfl, q, hq, hfree, rfl⟩ := openFile_ok hopen
  · rw [hop, hi, Except.ok.injEq]
    exact not_congr (and_congr_right (fun hij => by rw [hij]))
  · have hother : fs.inode p ≠ .ok j := by
      rw [ne_eq, inode_eq_iff]
      rintro ⟨r, hr, hdir⟩
      rw [hq, Except.ok.injEq] at hr
      rw [← hr, hfree] at hdir
      cases hdir
    exact iff_of_true (hop.2 (fun h => Nat.ne_of_gt hj h.1)) (fun h => hother h.1)

/-- What cannot be opened is no regular file. -/
theorem not_regular_of_openFile {e : Error} (hopen : fs.openFile create p = .error e) {j : Nat} {P : List β → Prop} :
    ¬ (fs.inode p = .ok j ∧ ∃ content, fs.node j = .regular content ∧ P content) := by
  rintro ⟨hi, content, hreg, -⟩
  rw [openFile_of_regular hi hreg] at hopen
  cases hopen

end

section
variable [DecidableEq β]

theorem prune_eq (fs : Fs ν β) (i : Nat) (f : List β → List β) : fs.prune i f = fs ∨ fs.prune i f = fs.truncate i f := by
  unfold prune
  split
  · split
    · exact .inl rfl
    · exact .inr rfl
  · exact .inl rfl

theorem prune_after (fs : Fs ν β) (i : Nat) (f : List β → List β) : After fs (fs.prune i f) := by
  rcases prune_eq fs i f with h | h <;> rw [h]
  · exact .refl fs
  · exact truncate_after fs i f

@[simp] theorem prune_dir (fs : Fs ν β) (i : Nat) (f : List β → List β) : (fs.prune i f).dir = fs.dir := by
  rcases prune_eq fs i f with h | h <;> rw [h]
  exact truncate_dir fs i f

theorem prune_cuts_eq_iff (fs : Fs ν β) (i j : Nat) (f : List β → List β) :
    (fs.prune i f).cuts j = fs.cuts j ↔ ¬ (i = j ∧ ∃ content, fs.node i = .regular content ∧ f content ≠ content) := by
  unfold prune
  split
  · rename_i content hi
    simp only [hi, Kind.regular.injEq, exists_eq_left']
    split
    · rename_i hsame
      simp [hsame]
    · rename_i hdiff
      rw [truncate_cuts_eq_iff]
      simp [hi, hdiff]
  · rename_i hreg
    refine ⟨fun _ h => ?_, fun _ => rfl⟩
    obtain ⟨-, content, hc, -⟩ := h
    exact hreg content hc

/-- A file that is cut back stays where it was. -/
theorem prune_node {fs : Fs ν β} {i : Nat} {content : List β} (hi : fs.node i = .regular content)
    (f : List β → List β) (p : ν) :
    (fs.prune i f).node i = .regular (f content) ∧ (fs.prune i f).inode p = fs.inode p := by
  unfold prune truncate
  simp only [hi]
  split
  · rename_i hsame
    rw [hsame]
    exact ⟨hi, rfl⟩
  · exact ⟨setNode_node_self _ _ _, setNode_inode hi _ p⟩

end

/-- A file that is no link and stays none is at the end of the same links. -/
theorem setNode_resolve_of_not_link {fs : Fs ν β} {i : Nat} {k : Kind ν β} (hi : ∀ q, fs.node i ≠ .link q)
    (hk : ∀ q, k ≠ .link q) : ∀ (fuel : Nat) (p : ν), (fs.setNode i k).resolve fuel p = fs.resolve fuel p
  | 0, _ => rfl
  | fuel + 1, p => by
    have hdir : (fs.setNode i k).dir p = fs.dir p := rfl
    rw [resolve, resolve, hdir]
    cases hp : fs.dir p with
    | none => rfl
    | some j =>
      by_cases hj : j = i
      · rw [hj, Option.map_some, Option.map_some, setNode_node_self]
        cases hnode : fs.node i with
        | link q => exact absurd hnode (hi q)
        | _ =>
          cases k with
          | link q => exact absurd rfl (hk q)
          | _ => rfl
      · rw [Option.map_some, Option.map_some, setNode_node_of_ne fs _ hj]
        cases fs.node j with
        | link target => exact setNode_resolve_of_not_link hi hk fuel target
        | _ => rfl

/-- A name that is no link may go: the other names lead where they led. -/
theorem drop_resolve [DecidableEq ν] {fs : Fs ν β} {p q : ν} (hp : ∀ r, fs.look p ≠ some (.link r)) (hq : q ≠ p) :
    ∀ (fuel : Nat) (r : ν), fs.resolve fuel r = .ok q → (fs.drop p).resolve fuel r = .ok q
  | 0, _, h => by cases h
  | fuel + 1, r, h => by
    have hr : r ≠ p := by
      rintro rfl
      rw [resolve_of_not_link hp] at h
      cases h
      exact hq rfl
    have hdir : (fs.drop p).dir r = fs.dir r := if_neg hr
    have hnode : (fs.dir r).map (fs.drop p).node = (fs.dir r).map fs.node := rfl
    rw [resolve] at h ⊢
    rw [hdir, hnode]
    cases hd : (fs.dir r).map fs.node with
    | none =>
      rw [hd] at h
      exact h
    | some k =>
      rw [hd] at h
      cases k with
      | link target => exact drop_resolve hp hq fuel target h
      | _ => exact h

theorem stat_of_look_none {fs : Fs ν β} {p : ν} (h : fs.look p = none) : fs.stat p = .error .noEntry := by
  have hres := fs.resolve_of_not_link (p := p) (fun q => by simp [h]) symlinkMax
  simp [stat, inode, hres, look_eq_none_iff.1 h, Except.map]

/-- **A file made at a free name** is in the way of no name that leads to another. -/
theorem make_inode_iff [DecidableEq ν] {fs : Fs ν β} {q : ν} (hq : fs.dir q = none) {k : Kind ν β}
    (hk : ∀ target, k ≠ .link target) {i : Nat} (hi : i < fs.next) (hnode : ∀ target, fs.node i ≠ .link target) {p : ν} :
    (fs.make q k).inode p = .ok i ↔ fs.inode p = .ok i := by
  refine ⟨((make_after fs q hk).led hi).inode hnode, fun h => ?_⟩
  have hresolve : ∀ (fuel : Nat) (p r : ν), fs.resolve fuel p = .ok r → fs.dir r = some i →
      (fs.make q k).resolve fuel p = .ok r := by
    intro fuel
    induction fuel with
    | zero =>
      intro p r hr _
      cases hr
    | succ fuel ih =>
      intro p r hr hri
      by_cases hlink : ∃ target, fs.look p = some (.link target)
      · obtain ⟨target, ht⟩ := hlink
        have hp : p ≠ q := by
          rintro rfl
          rw [look_eq_none_iff.2 hq] at ht
          cases ht
        have ht' : (fs.make q k).look p = some (.link target) := by rw [make_look, if_neg hp, ht]
        rw [resolve_of_link ht] at hr
        rw [resolve_of_link ht']
        exact ih target r hr hri
      · rw [resolve_of_not_link (fun target ht => hlink ⟨target, ht⟩)] at hr
        obtain rfl := Except.ok.inj hr
        exact resolve_of_not_link (fun target ht => hlink ⟨target, (make_after fs q hk).link_of_link p target ht⟩) fuel
  obtain ⟨r, hr, hri⟩ := inode_eq_iff.1 h
  have hrq : r ≠ q := by
    rintro rfl
    rw [hq] at hri
    cases hri
  exact inode_eq_iff.2 ⟨r, hresolve _ p r hr hri, (if_neg hrq).trans hri⟩

/-- What is no link is what the name leads to. -/
theorem stat_of_look {fs : Fs ν β} {p : ν} {k : Kind ν β} (h : fs.look p = some k) (hlink : ∀ q, k ≠ .link q) :
    ∃ k', fs.stat p = .ok k' ∧ k'.blank = k := by
  obtain ⟨i, hi, hk⟩ := Option.map_eq_some_iff.1 h
  have hres := fs.resolve_of_not_link (p := p) (fun q hq => hlink q (Option.some_inj.1 (h.symm.trans hq))) symlinkMax
  exact ⟨fs.node i, by simp [stat, inode, hres, hi, Except.map], hk⟩

@[simp] theorem rewrite_look (fs : Fs ν β) (i : Nat) (f : List β → List β) (p : ν) : (fs.rewrite i f).look p = fs.look p := by
  unfold rewrite
  split
  · exact setNode_look ‹_› _ p
  · rfl

@[simp] theorem truncate_look (fs : Fs ν β) (i : Nat) (f : List β → List β) (p : ν) : (fs.truncate i f).look p = fs.look p := by
  unfold truncate
  split
  · exact setNode_look ‹_› _ p
  · rfl

@[simp] theorem prune_look [DecidableEq β] (fs : Fs ν β) (i : Nat) (f : List β → List β) (p : ν) :
    (fs.prune i f).look p = fs.look p := by
  rcases prune_eq fs i f with h | h <;> rw [h]
  exact truncate_look fs i f p

section
variable [DecidableEq ν]

theorem drop_look (fs : Fs ν β) (p q : ν) : (fs.drop p).look q = if q = p then none else fs.look q := by
  unfold look drop
  dsimp only
  split <;> rfl

/-- What is no link an open leaves as it is, or makes. -/
theorem openFile_look {fs fs' : Fs ν β} {p : ν} {i : Nat} (h : fs.openFile true p = .ok (fs', i))
    (hlink : ∀ q, fs.look p ≠ some (.link q)) (q : ν) :
    fs'.look q = if fs.look p = none ∧ q = p then some (.regular []) else fs.look q := by
  obtain ⟨rfl, hi⟩ | ⟨-, -, r, hr, hfree, rfl⟩ := openFile_ok h
  · obtain ⟨r, hr, hdir⟩ := inode_eq_iff.1 hi
    rw [fs'.resolve_of_not_link hlink, Except.ok.injEq] at hr
    rw [← hr] at hdir
    rw [if_neg]
    rintro ⟨hnone, -⟩
    rw [look_eq_none_iff.1 hnone] at hdir
    cases hdir
  · rw [fs.resolve_of_not_link hlink, Except.ok.injEq] at hr
    rw [← hr] at hfree ⊢
    have hnone := look_eq_none_iff.2 hfree
    simp only [make_look, hnone, true_and]
    rfl

/-- Where there is nothing an open makes a file. -/
theorem look_of_openFile_error {fs : Fs ν β} {p : ν} {e : Error} (h : fs.openFile true p = .error e)
    (hlink : ∀ q, fs.look p ≠ some (.link q)) : fs.look p ≠ none := by
  intro hnone
  simp [openFile, fs.resolve_of_not_link hlink, look_eq_none_iff.1 hnone] at h

end

end Fs
end FileSystem
