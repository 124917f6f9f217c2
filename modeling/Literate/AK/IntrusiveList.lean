import Mathlib.Data.Fintype.Card
import Literate.Foundation.DoublyLinked
import Literate.Foundation.Run

/-!
# AK: intrusive lists

`AK/IntrusiveList.h`: any number of lists, and the nodes that are in them.  The nodes outlive
the operations: the reference that a node keeps to itself for a smart pointer is left out.
-/

namespace Literate.AK

open Foundation Function List Option
open Function (update)

/-- The storages of the lists, and the fields of the nodes. -/
structure IntrusiveLists (Node Storage : Type) where
  mFirst : Storage → Option Node
  mLast : Storage → Option Node
  mStorage : Node → Option Storage
  mNext : Node → Option Node
  mPrev : Node → Option Node

namespace IntrusiveLists

section

variable {Node Storage : Type} [DecidableEq Node] [DecidableEq Storage]

/-- Lists and nodes as they are constructed. -/
def empty : IntrusiveLists Node Storage :=
  ⟨fun _ => none, fun _ => none, fun _ => none, fun _ => none, fun _ => none⟩

def setFirst (s : IntrusiveLists Node Storage) (list : Storage) (node : Option Node) :
    IntrusiveLists Node Storage :=
  { s with mFirst := update s.mFirst list node }

def setLast (s : IntrusiveLists Node Storage) (list : Storage) (node : Option Node) :
    IntrusiveLists Node Storage :=
  { s with mLast := update s.mLast list node }

def setStorage (s : IntrusiveLists Node Storage) (n : Node) (list : Option Storage) :
    IntrusiveLists Node Storage :=
  { s with mStorage := update s.mStorage n list }

def setNext (s : IntrusiveLists Node Storage) (n : Node) (node : Option Node) :
    IntrusiveLists Node Storage :=
  { s with mNext := update s.mNext n node }

def setPrev (s : IntrusiveLists Node Storage) (n : Node) (node : Option Node) :
    IntrusiveLists Node Storage :=
  { s with mPrev := update s.mPrev n node }

/-- `IntrusiveListNode::remove`. -/
def removeNode (s : IntrusiveLists Node Storage) (n : Node) :
    Option (IntrusiveLists Node Storage) := do
  let storage ← s.mStorage n
  let s := if s.mFirst storage = some n then s.setFirst storage (s.mNext n) else s
  let s := if s.mLast storage = some n then s.setLast storage (s.mPrev n) else s
  let s := match s.mPrev n with
    | some prev => s.setNext prev (s.mNext n)
    | none => s
  let s := match s.mNext n with
    | some next => s.setPrev next (s.mPrev n)
    | none => s
  return ((s.setPrev n none).setNext n none).setStorage n none

/-- `remove`: from whichever list the node is in. -/
def remove (s : IntrusiveLists Node Storage) (n : Node) : Option (IntrusiveLists Node Storage) :=
  if (s.mStorage n).isSome then s.removeNode n else some s

def append (s : IntrusiveLists Node Storage) (list : Storage) (n : Node) :
    Option (IntrusiveLists Node Storage) := do
  let s ← s.remove n
  let s := s.setStorage n (some list)
  let s := s.setPrev n (s.mLast list)
  let s := s.setNext n none
  let s := match s.mLast list with
    | some last => s.setNext last (some n)
    | none => s
  let s := s.setLast list (some n)
  return if s.mFirst list = none then s.setFirst list (some n) else s

def prepend (s : IntrusiveLists Node Storage) (list : Storage) (n : Node) :
    Option (IntrusiveLists Node Storage) := do
  let s ← s.remove n
  let s := s.setStorage n (some list)
  let s := s.setPrev n none
  let s := s.setNext n (s.mFirst list)
  let s := match s.mFirst list with
    | some first => s.setPrev first (some n)
    | none => s
  let s := s.setFirst list (some n)
  return if s.mLast list = none then s.setLast list (some n) else s

def insertBefore (s : IntrusiveLists Node Storage) (list : Storage) (bn n : Node) :
    Option (IntrusiveLists Node Storage) := do
  let s ← s.remove n
  let s := s.setStorage n (some list)
  let s := s.setNext n (some bn)
  let s := s.setPrev n (s.mPrev bn)
  let s := match s.mPrev bn with
    | some prev => s.setNext prev (some n)
    | none => s
  let s := s.setPrev bn (some n)
  return if s.mFirst list = some bn then s.setFirst list (some n) else s

def contains (s : IntrusiveLists Node Storage) (list : Storage) (n : Node) : Bool :=
  s.mStorage n = some list

def takeFirst (s : IntrusiveLists Node Storage) (list : Storage) :
    Option (IntrusiveLists Node Storage × Option Node) :=
  match s.mFirst list with
  | some n => do
      let s ← s.remove n
      return (s, some n)
  | none => some (s, none)

def takeLast (s : IntrusiveLists Node Storage) (list : Storage) :
    Option (IntrusiveLists Node Storage × Option Node) :=
  match s.mLast list with
  | some n => do
      let s ← s.remove n
      return (s, some n)
  | none => some (s, none)

/-- The loop of `clear`. -/
def clearLoop (list : Storage) : (fuel : Nat) → IntrusiveLists Node Storage →
    Option (IntrusiveLists Node Storage)
  | 0, _ => none
  | fuel + 1, s =>
    match s.mFirst list with
    | some first => do
        let s ← s.removeNode first
        clearLoop list fuel s
    | none => some s

def clear [Fintype Node] (s : IntrusiveLists Node Storage) (list : Storage) :
    Option (IntrusiveLists Node Storage) :=
  clearLoop list (Fintype.card Node + 1) s

/-- The operations, each on a list. -/
inductive Operation (Node Storage : Type)
  | append (list : Storage) (n : Node)
  | prepend (list : Storage) (n : Node)
  | insertBefore (list : Storage) (bn n : Node)
  | remove (list : Storage) (n : Node)
  | takeFirst (list : Storage)
  | takeLast (list : Storage)
  | clear (list : Storage)

/-- An operation, and the node that it returns. -/
def step [Fintype Node] (s : IntrusiveLists Node Storage × Option Node) :
    Operation Node Storage → Option (IntrusiveLists Node Storage × Option Node)
  | .append list n => (s.1.append list n).map (·, none)
  | .prepend list n => (s.1.prepend list n).map (·, none)
  | .insertBefore list bn n => (s.1.insertBefore list bn n).map (·, none)
  | .remove _ n => (s.1.remove n).map (·, none)
  | .takeFirst list => s.1.takeFirst list
  | .takeLast list => s.1.takeLast list
  | .clear list => (s.1.clear list).map (·, none)

/-! ## What the lists hold -/

/-- The pointers forwards in a list, from null to the first node. -/
def forwardOf (s : IntrusiveLists Node Storage) (list : Storage) : Option Node → Option Node
  | none => s.mFirst list
  | some n => if s.mStorage n = some list then s.mNext n else none

/-- The pointers backwards in a list, from null to the last node. -/
def backwardOf (s : IntrusiveLists Node Storage) (list : Storage) : Option Node → Option Node
  | none => s.mLast list
  | some n => if s.mStorage n = some list then s.mPrev n else none

/-- The lists hold these nodes, in this order, and each node knows its list. -/
structure Holds (s : IntrusiveLists Node Storage) (nodes : Storage → List Node) : Prop where
  threads : ∀ list, Threads (s.forwardOf list) (s.backwardOf list) (nodes list)
  storage : ∀ n list, s.mStorage n = some list ↔ n ∈ nodes list

/-! ## Pointers written -/

/-- The pointer forwards from null or from a node of the list. -/
def setForward (s : IntrusiveLists Node Storage) (list : Storage) (source target : Option Node) :
    IntrusiveLists Node Storage :=
  match source with
  | none => s.setFirst list target
  | some n => s.setNext n target

/-- The pointer backwards from null or from a node of the list. -/
def setBackward (s : IntrusiveLists Node Storage) (list : Storage) (source target : Option Node) :
    IntrusiveLists Node Storage :=
  match source with
  | none => s.setLast list target
  | some n => s.setPrev n target

/-- The three fields of a node. -/
def setNode (s : IntrusiveLists Node Storage) (n : Node) (list : Option Storage)
    (next prev : Option Node) : IntrusiveLists Node Storage :=
  ((s.setStorage n list).setNext n next).setPrev n prev

variable {s : IntrusiveLists Node Storage} {list other : Storage} {n : Node}
  {p q next prev : Option Node} {storage : Option Storage} {nodes : Storage → List Node}

theorem mStorage_setForward : (s.setForward list p q).mStorage = s.mStorage := by
  cases p <;> rfl

theorem mStorage_setBackward : (s.setBackward list p q).mStorage = s.mStorage := by
  cases p <;> rfl

theorem forwardOf_setForward (hp : ∀ x, p = some x → s.mStorage x = some list) :
    (s.setForward list p q).forwardOf other =
      if other = list then update (s.forwardOf list) p q else s.forwardOf other := by
  funext x
  cases p with
  | none =>
    split_ifs with hother
    · subst hother
      cases x with
      | none =>
        rw [update_self]
        exact update_self other q s.mFirst
      | some x =>
        rw [update_of_ne (some_ne_none x)]
        rfl
    · cases x with
      | none => exact update_of_ne hother q s.mFirst
      | some x => rfl
  | some y =>
    have hy := hp y rfl
    have hnext : ∀ x, (s.setForward list (some y) q).mNext x =
        if x = y then q else s.mNext x := fun x => update_apply s.mNext y q x
    split_ifs with hother
    · subst hother
      rw [update_apply]
      cases x with
      | none => rfl
      | some x =>
        simp only [forwardOf, mStorage_setForward, hnext]
        by_cases hxy : x = y
        · rw [if_pos hxy, hxy, if_pos hy, if_pos rfl]
        · rw [if_neg hxy, if_neg fun heq => hxy (some.inj heq)]
    · cases x with
      | none => rfl
      | some x =>
        simp only [forwardOf, mStorage_setForward, hnext]
        by_cases hxy : x = y
        · have hne : ¬ s.mStorage x = some other := by
            rw [hxy, hy, some.injEq]
            exact fun heq => hother heq.symm
          simp only [if_neg hne]
        · rw [if_neg hxy]

theorem backwardOf_setForward : (s.setForward list p q).backwardOf other = s.backwardOf other := by
  cases p <;> rfl

/-- The lists read backwards. -/
def mirror (s : IntrusiveLists Node Storage) : IntrusiveLists Node Storage :=
  ⟨s.mLast, s.mFirst, s.mStorage, s.mPrev, s.mNext⟩

theorem mirror_setBackward : (s.setBackward list p q).mirror = s.mirror.setForward list p q := by
  cases p <;> rfl

omit [DecidableEq Node] in
theorem forwardOf_mirror : s.mirror.forwardOf other = s.backwardOf other := by
  funext x
  cases x <;> rfl

omit [DecidableEq Node] in
theorem backwardOf_mirror : s.mirror.backwardOf other = s.forwardOf other := by
  funext x
  cases x <;> rfl

theorem backwardOf_setBackward (hp : ∀ x, p = some x → s.mStorage x = some list) :
    (s.setBackward list p q).backwardOf other =
      if other = list then update (s.backwardOf list) p q else s.backwardOf other := by
  have hp' : ∀ x, p = some x → s.mirror.mStorage x = some list := hp
  rw [← forwardOf_mirror, mirror_setBackward, forwardOf_setForward hp', forwardOf_mirror,
    forwardOf_mirror]

theorem forwardOf_setBackward : (s.setBackward list p q).forwardOf other = s.forwardOf other := by
  rw [← backwardOf_mirror, mirror_setBackward, backwardOf_setForward, backwardOf_mirror]

theorem forwardOf_setNode : (s.setNode n storage next prev).forwardOf other =
    update (s.forwardOf other) (some n) (if storage = some other then next else none) := by
  funext x
  rw [update_apply]
  cases x with
  | none => rfl
  | some x =>
    have hstorage : (s.setNode n storage next prev).mStorage x =
        if x = n then storage else s.mStorage x := update_apply s.mStorage n storage x
    have hnext : (s.setNode n storage next prev).mNext x =
        if x = n then next else s.mNext x := update_apply s.mNext n next x
    rw [forwardOf, hstorage, hnext]
    by_cases hxn : x = n
    · simp only [if_pos hxn, if_pos (congrArg some hxn)]
    · simp only [if_neg hxn, if_neg fun heq => hxn (some.inj heq)]
      rfl

theorem backwardOf_setNode : (s.setNode n storage next prev).backwardOf other =
    update (s.backwardOf other) (some n) (if storage = some other then prev else none) := by
  have hmirror : (s.setNode n storage next prev).mirror = s.mirror.setNode n storage prev next := rfl
  rw [← forwardOf_mirror, hmirror, forwardOf_setNode, forwardOf_mirror]

/-- A node is taken out of its list. -/
def unlinkNode (s : IntrusiveLists Node Storage) (list : Storage) (n : Node) :
    IntrusiveLists Node Storage :=
  ((s.setForward list (s.mPrev n) (s.mNext n)).setBackward list (s.mNext n) (s.mPrev n)).setNode n
    none none none

/-- A node is put into a list. -/
def linkNode (s : IntrusiveLists Node Storage) (list : Storage) (prev next : Option Node)
    (n : Node) : IntrusiveLists Node Storage :=
  ((s.setNode n (some list) next prev).setForward list prev (some n)).setBackward list next (some n)

theorem mStorage_unlinkNode : (s.unlinkNode list n).mStorage = update s.mStorage n none := by
  have hset : (s.unlinkNode list n).mStorage = update
      ((s.setForward list (s.mPrev n) (s.mNext n)).setBackward list (s.mNext n)
        (s.mPrev n)).mStorage n none := rfl
  rw [hset, mStorage_setBackward, mStorage_setForward]

theorem mStorage_linkNode :
    (s.linkNode list prev next n).mStorage = update s.mStorage n (some list) := by
  rw [linkNode, mStorage_setBackward, mStorage_setForward]
  rfl

namespace Holds

variable {before after : List Node}

section

variable (h : Holds s nodes)

include h

theorem nodup (list : Storage) : (nodes list).Nodup := (h.threads list).nodup

theorem disjoint (hn : n ∈ nodes list) (hother : n ∈ nodes other) : other = list := by
  have hlist := (h.storage n list).mpr hn
  rw [(h.storage n other).mpr hother, some.injEq] at hlist
  exact hlist

theorem mFirst_eq : s.mFirst list = (nodes list).head? := by
  have hforward := congrFun (h.threads list).forward none
  rw [following_none] at hforward
  exact hforward

theorem mLast_eq : s.mLast list = (nodes list).getLast? := by
  have hbackward := congrFun (h.threads list).backward none
  rw [following_none, List.head?_reverse] at hbackward
  exact hbackward

theorem mNext_eq (hn : n ∈ nodes list) : s.mNext n = following (nodes list) (some n) := by
  rw [← (h.threads list).forward, forwardOf, if_pos ((h.storage n list).mpr hn)]

theorem mPrev_eq (hn : n ∈ nodes list) : s.mPrev n = following (nodes list).reverse (some n) := by
  rw [← (h.threads list).backward, backwardOf, if_pos ((h.storage n list).mpr hn)]

theorem unlink (hnodes : nodes list = before ++ n :: after) :
    Holds (s.unlinkNode list n) (update nodes list (before ++ after)) := by
  have hn : n ∈ nodes list := hnodes ▸ mem_append_right before mem_cons_self
  have hstorage := (h.storage n list).mpr hn
  have hforward : s.forwardOf list (some n) = s.mNext n := if_pos hstorage
  have hbackward : s.backwardOf list (some n) = s.mPrev n := if_pos hstorage
  have hthreads := h.threads list
  rw [hnodes] at hthreads
  have hprev : ∀ x, s.mPrev n = some x → s.mStorage x = some list := by
    intro x hx
    rw [h.mPrev_eq hn] at hx
    exact (h.storage x list).mpr (mem_reverse.mp (mem_of_following hx))
  have hnext : ∀ x, s.mNext n = some x → s.mStorage x = some list := by
    intro x hx
    rw [h.mNext_eq hn] at hx
    exact (h.storage x list).mpr (mem_of_following hx)
  have hnext' : ∀ x, s.mNext n = some x →
      (s.setForward list (s.mPrev n) (s.mNext n)).mStorage x = some list := by
    rw [mStorage_setForward]
    exact hnext
  have hnodup := (nodup_cons.mp (nodup_middle.mp hthreads.nodup)).1
  refine ⟨fun other => ?_, fun x other => ?_⟩
  · simp only [unlinkNode, forwardOf_setNode, backwardOf_setNode, forwardOf_setBackward,
      backwardOf_setBackward hnext', forwardOf_setForward hprev, backwardOf_setForward, ite_self,
      update_apply nodes]
    by_cases hother : other = list
    · simp only [if_pos hother, ← hforward, ← hbackward]
      exact hthreads.unlink
    · simp only [if_neg hother]
      have hne : ¬ s.mStorage n = some other := by
        rw [hstorage, some.injEq]
        exact fun heq => hother heq.symm
      have hforward' : s.forwardOf other (some n) = none := if_neg hne
      have hbackward' : s.backwardOf other (some n) = none := if_neg hne
      rw [update_eq_self_iff.mpr hforward'.symm,
        update_eq_self_iff.mpr hbackward'.symm]
      exact h.threads other
  · rw [mStorage_unlinkNode, update_apply, update_apply nodes]
    by_cases hxn : x = n
    · subst hxn
      rw [if_pos rfl]
      refine iff_of_false nofun fun hx => ?_
      by_cases hother : other = list
      · rw [if_pos hother] at hx
        exact hnodup hx
      · rw [if_neg hother] at hx
        exact hother (h.disjoint hn hx)
    · rw [if_neg hxn, h.storage]
      by_cases hother : other = list
      · rw [if_pos hother, hother, hnodes, mem_append, mem_append, mem_cons,
          or_iff_right hxn]
      · rw [if_neg hother]

theorem link (hnodes : nodes list = before ++ after)
    (hn : s.mStorage n = none) : Holds (s.linkNode list before.getLast? after.head? n)
      (update nodes list (before ++ n :: after)) := by
  have hnot : ∀ other, n ∉ nodes other := by
    intro other hmem
    rw [(h.storage n other).mpr hmem] at hn
    cases hn
  have hthreads := h.threads list
  rw [hnodes] at hthreads
  have hout := hnot list
  rw [hnodes] at hout
  have hstorage : ∀ x, x ∈ nodes list →
      (s.setNode n (some list) after.head? before.getLast?).mStorage x = some list := by
    intro x hx
    have hne : x ≠ n := fun heq => hnot list (heq ▸ hx)
    exact (update_of_ne hne _ _).trans ((h.storage x list).mpr hx)
  have hprev : ∀ x, before.getLast? = some x →
      (s.setNode n (some list) after.head? before.getLast?).mStorage x = some list :=
    fun x hx => hstorage x (hnodes ▸ mem_append_left after (List.mem_of_getLast? hx))
  have hnext : ∀ x, after.head? = some x →
      ((s.setNode n (some list) after.head? before.getLast?).setForward list before.getLast?
        (some n)).mStorage x = some list := by
    intro x hx
    rw [mStorage_setForward]
    exact hstorage x (hnodes ▸ mem_append_right before (List.mem_of_mem_head? hx))
  refine ⟨fun other => ?_, fun x other => ?_⟩
  · rw [linkNode, forwardOf_setBackward, backwardOf_setBackward hnext, forwardOf_setForward hprev,
      backwardOf_setForward, backwardOf_setForward, forwardOf_setNode, backwardOf_setNode,
      forwardOf_setNode, backwardOf_setNode, update_apply nodes]
    by_cases hother : other = list
    · simp only [if_pos hother, if_pos rfl]
      exact hthreads.link hout
    · have hne : ¬ some list = some other := fun heq => hother (some.inj heq).symm
      simp only [if_neg hother, if_neg hne]
      have hnone : ¬ s.mStorage n = some other := by
        rw [hn]
        exact nofun
      have hforward : s.forwardOf other (some n) = none := if_neg hnone
      have hbackward : s.backwardOf other (some n) = none := if_neg hnone
      rw [update_eq_self_iff.mpr hforward.symm,
        update_eq_self_iff.mpr hbackward.symm]
      exact h.threads other
  · rw [mStorage_linkNode, update_apply, update_apply nodes]
    by_cases hxn : x = n
    · subst hxn
      rw [if_pos rfl, some.injEq]
      by_cases hother : other = list
      · rw [if_pos hother]
        exact iff_of_true hother.symm (mem_append_right before mem_cons_self)
      · rw [if_neg hother]
        exact iff_of_false (fun heq => hother heq.symm) (hnot other)
    · rw [if_neg hxn, h.storage]
      by_cases hother : other = list
      · rw [if_pos hother, hother, hnodes, mem_append, mem_append, mem_cons,
          or_iff_right hxn]
      · rw [if_neg hother]

/-! ## The operations -/

/-- The first node is the one with nothing before it. -/
theorem mFirst_eq_some (hn : n ∈ nodes list) : s.mFirst list = some n ↔ s.mPrev n = none := by
  rw [h.mFirst_eq, h.mPrev_eq hn, ← following_none, following_reverse (h.nodup list) hn]
  exact eq_comm

theorem mLast_eq_some (hn : n ∈ nodes list) : s.mLast list = some n ↔ s.mNext n = none := by
  have hreverse := @following_reverse _ _ (nodes list).reverse none n
    (nodup_reverse.mpr (h.nodup list)) (mem_reverse.mpr hn)
  rw [reverse_reverse, following_none, List.head?_reverse] at hreverse
  rw [h.mLast_eq, h.mNext_eq hn, hreverse]
  exact eq_comm

/-- `IntrusiveListNode::remove` takes the node out of its list. -/
theorem removeNode_eq (hn : n ∈ nodes list) : s.removeNode n = some (s.unlinkNode list n) := by
  have hfirst := h.mFirst_eq_some hn
  have hlast := h.mLast_eq_some hn
  have hprevSelf : s.mPrev n ≠ some n := by
    rw [h.mPrev_eq hn]
    exact following_self_ne (nodup_reverse.mpr (h.nodup list))
  have hstorage := (h.storage n list).mpr hn
  cases hp : s.mPrev n with
  | none =>
    cases hq : s.mNext n with
    | none =>
      simp [removeNode, unlinkNode, setFirst, setLast, setNext, setPrev, setStorage,
        setForward, setBackward, setNode, hstorage, hfirst.mpr hp, hlast.mpr hq, hp, hq]
    | some q =>
      have hlastNe : ¬ s.mLast list = some n := by
        rw [hlast, hq]
        exact nofun
      simp [removeNode, unlinkNode, setFirst, setLast, setNext, setPrev, setStorage,
        setForward, setBackward, setNode, hstorage, hfirst.mpr hp, hlastNe, hp, hq]
  | some p =>
    have hfirstNe : ¬ s.mFirst list = some n := by
      rw [hfirst, hp]
      exact nofun
    have hpn : n ≠ p := by
      rintro rfl
      exact hprevSelf hp
    cases hq : s.mNext n with
    | none =>
      simp [removeNode, unlinkNode, setFirst, setLast, setNext, setPrev, setStorage,
        setForward, setBackward, setNode, hstorage, hfirstNe, hlast.mpr hq, hp, hq, hpn]
    | some q =>
      have hlastNe : ¬ s.mLast list = some n := by
        rw [hlast, hq]
        exact nofun
      simp [removeNode, unlinkNode, setFirst, setLast, setNext, setPrev, setStorage,
        setForward, setBackward, setNode, hstorage, hfirstNe, hlastNe, hp, hq, hpn]

end

end Holds

/-- A node is taken out of whichever list it is in. -/
def without (nodes : Storage → List Node) (n : Node) (list : Storage) : List Node :=
  (nodes list).erase n

/-- A node is put before another one. -/
def putBefore (bn n : Node) : List Node → List Node
  | [] => []
  | a :: l => if a = bn then n :: a :: l else a :: putBefore bn n l

/-- What an operation does to the lists, and the node that it returns. -/
def operate (nodes : Storage → List Node) :
    Operation Node Storage → (Storage → List Node) × Option Node
  | .append list n => (update (without nodes n) list (without nodes n list ++ [n]), none)
  | .prepend list n => (update (without nodes n) list (n :: without nodes n list), none)
  | .insertBefore list bn n =>
    (update (without nodes n) list (putBefore bn n (without nodes n list)), none)
  | .remove _ n => (without nodes n, none)
  | .takeFirst list => (update nodes list (nodes list).tail, (nodes list).head?)
  | .takeLast list => (update nodes list (nodes list).dropLast, (nodes list).getLast?)
  | .clear list => (update nodes list [], none)

omit [DecidableEq Storage] in
theorem putBefore_append {bn : Node} {before after : List Node} (h : bn ∉ before) :
    putBefore bn n (before ++ bn :: after) = before ++ n :: bn :: after := by
  induction before with
  | nil => exact if_pos rfl
  | cons a before ih =>
    rw [mem_cons, not_or] at h
    rw [List.cons_append, putBefore, if_neg (Ne.symm h.1), ih h.2]
    rfl

namespace Holds

variable {before after : List Node}

theorem without_eq (h : Holds s nodes) (hnodes : nodes list = before ++ n :: after) :
    without nodes n = update nodes list (before ++ after) := by
  have hn : n ∈ nodes list := hnodes ▸ mem_append_right before mem_cons_self
  have hnodup := h.nodup list
  rw [hnodes] at hnodup
  have hbefore : n ∉ before := fun hmem =>
    (nodup_cons.mp (nodup_middle.mp hnodup)).1 (mem_append_left after hmem)
  funext other
  rw [update_apply, without]
  split_ifs with hother
  · rw [hother, hnodes, erase_append_right _ hbefore, erase_cons_head]
  · exact erase_of_not_mem fun hmem => hother (h.disjoint hn hmem)

theorem remove_eq (h : Holds s nodes) (n : Node) :
    ∃ s', s.remove n = some s' ∧ Holds s' (without nodes n) ∧ s'.mStorage n = none := by
  cases hstorage : s.mStorage n with
  | none =>
    refine ⟨s, by rw [remove, hstorage]; rfl, ?_, hstorage⟩
    have hsame : without nodes n = nodes := funext fun list => erase_of_not_mem fun hmem => by
      rw [(h.storage n list).mpr hmem] at hstorage
      cases hstorage
    rw [hsame]
    exact h
  | some list =>
    have hn := (h.storage n list).mp hstorage
    obtain ⟨before, after, hnodes⟩ := append_of_mem hn
    refine ⟨s.unlinkNode list n, by rw [remove, hstorage]; exact h.removeNode_eq hn, ?_, ?_⟩
    · rw [h.without_eq hnodes]
      exact h.unlink hnodes
    · rw [mStorage_unlinkNode, update_self]

theorem ends (h : Holds s nodes) : s.mFirst list = none ↔ s.mLast list = none := by
  rw [h.mFirst_eq, h.mLast_eq, List.head?_eq_none_iff, List.getLast?_eq_none_iff]

section

variable (h : Holds s nodes)

include h

theorem append (list : Storage) (n : Node) :
    ∃ s', s.append list n = some s' ∧ Holds s' (operate nodes (.append list n)).1 := by
  obtain ⟨s', hremove, h', hn⟩ := h.remove_eq n
  have hnodes : without nodes n list = without nodes n list ++ [] := (append_nil _).symm
  have hlink := h'.link hnodes hn
  refine ⟨_, ?_, hlink⟩
  have hends := @ends _ _ _ _ s' list _ h'
  rw [IntrusiveLists.append, hremove, List.head?_nil, ← h'.mLast_eq]
  cases hlast : s'.mLast list with
  | none =>
    simp [linkNode, setFirst, setLast, setNext, setPrev, setStorage, setForward, setBackward,
      setNode, hlast, hends.mpr hlast]
  | some last =>
    have hfirst : s'.mFirst list ≠ none := by
      rw [ne_eq, hends, hlast]
      exact nofun
    simp [linkNode, setFirst, setLast, setNext, setPrev, setStorage, setForward, setBackward,
      setNode, hlast, hfirst]

theorem prepend (list : Storage) (n : Node) :
    ∃ s', s.prepend list n = some s' ∧ Holds s' (operate nodes (.prepend list n)).1 := by
  obtain ⟨s', hremove, h', hn⟩ := h.remove_eq n
  have hnodes : without nodes n list = [] ++ without nodes n list := (nil_append _).symm
  have hlink := h'.link hnodes hn
  refine ⟨_, ?_, hlink⟩
  have hends := @ends _ _ _ _ s' list _ h'
  rw [IntrusiveLists.prepend, hremove, List.getLast?_nil, ← h'.mFirst_eq]
  cases hfirst : s'.mFirst list with
  | none =>
    simp [linkNode, setFirst, setLast, setNext, setPrev, setStorage, setForward, setBackward,
      setNode, hfirst, hends.mp hfirst]
  | some first =>
    have hlast : s'.mLast list ≠ none := by
      rw [ne_eq, ← hends, hfirst]
      exact nofun
    simp [linkNode, setFirst, setLast, setNext, setPrev, setStorage, setForward, setBackward,
      setNode, hfirst, hlast]

theorem insertBefore {bn : Node} (hbn : bn ∈ nodes list) (hne : bn ≠ n) :
    ∃ s', s.insertBefore list bn n = some s' ∧
      Holds s' (operate nodes (.insertBefore list bn n)).1 := by
  obtain ⟨s', hremove, h', hn⟩ := h.remove_eq n
  have hbn' : bn ∈ without nodes n list := (mem_erase_of_ne hne).mpr hbn
  obtain ⟨before, after, hnodes⟩ := append_of_mem hbn'
  have hnodup := h'.nodup list
  have hfirst := h'.mFirst_eq_some hbn'
  have hprev := h'.mPrev_eq hbn'
  have hlink := h'.link hnodes hn
  rw [hnodes] at hnodup
  have hreverse : (before ++ bn :: after).reverse = after.reverse ++ bn :: before.reverse := by simp
  have hlast : before.getLast? = s'.mPrev bn := by
    rw [hprev, hnodes, hreverse, following_self (hreverse ▸ nodup_reverse.mpr hnodup),
      List.head?_reverse]
  have hnot : bn ∉ before := fun hmem =>
    (nodup_cons.mp (nodup_middle.mp hnodup)).1 (mem_append_left after hmem)
  have hoperate : (operate nodes (.insertBefore list bn n)).1 =
      update (without nodes n) list (before ++ n :: bn :: after) := by
    rw [operate, hnodes, putBefore_append hnot]
  rw [hoperate]
  refine ⟨_, ?_, hlink⟩
  rw [IntrusiveLists.insertBefore, hremove, hlast, List.head?_cons]
  cases hp : s'.mPrev bn with
  | none =>
    simp [linkNode, setFirst, setNext, setPrev, setStorage, setForward, setBackward, setNode, hp,
      hfirst.mpr hp, hne]
  | some prev =>
    have hfirstNe : s'.mFirst list ≠ some bn := by
      rw [ne_eq, hfirst, hp]
      exact nofun
    simp [linkNode, setFirst, setNext, setPrev, setStorage, setForward, setBackward, setNode, hp,
      hfirstNe, hne]

theorem takeFirst (list : Storage) : ∃ s', s.takeFirst list = some (s', (nodes list).head?) ∧
      Holds s' (update nodes list (nodes list).tail) := by
  rw [IntrusiveLists.takeFirst, h.mFirst_eq]
  cases hnodes : nodes list with
  | nil => exact ⟨s, rfl, by rw [tail_nil, update_eq_self_iff.mpr hnodes.symm]; exact h⟩
  | cons n rest =>
    obtain ⟨s', hremove, h', _⟩ := h.remove_eq n
    refine ⟨s', by rw [List.head?_cons]; dsimp only; rw [hremove]; rfl, ?_⟩
    have hnodes' : nodes list = [] ++ n :: rest := hnodes
    rw [h.without_eq hnodes'] at h'
    exact h'

theorem takeLast (list : Storage) : ∃ s', s.takeLast list = some (s', (nodes list).getLast?) ∧
      Holds s' (update nodes list (nodes list).dropLast) := by
  rw [IntrusiveLists.takeLast, h.mLast_eq]
  rcases eq_nil_or_concat (nodes list) with hnodes | ⟨rest, n, hnodes⟩
  · rw [hnodes]
    exact ⟨s, rfl, by rw [dropLast_nil, update_eq_self_iff.mpr hnodes.symm]; exact h⟩
  · obtain ⟨s', hremove, h', _⟩ := h.remove_eq n
    rw [concat_eq_append] at hnodes
    rw [hnodes, List.getLast?_concat, dropLast_concat]
    refine ⟨s', by dsimp only; rw [hremove]; rfl, ?_⟩
    rw [h.without_eq hnodes, append_nil] at h'
    exact h'

theorem clearLoop {fuel : Nat} (hfuel : (nodes list).length < fuel) :
    ∃ s', IntrusiveLists.clearLoop list fuel s = some s' ∧
      Holds s' (update nodes list []) := by
  induction fuel generalizing s nodes with
  | zero => exact absurd hfuel (Nat.not_lt_zero _)
  | succ fuel ih =>
    rw [IntrusiveLists.clearLoop, h.mFirst_eq]
    cases hnodes : nodes list with
    | nil => exact ⟨s, rfl, by rw [update_eq_self_iff.mpr hnodes.symm]; exact h⟩
    | cons n rest =>
      have hnodes' : nodes list = [] ++ n :: rest := hnodes
      have hunlink := h.unlink hnodes'
      have hshort : (update nodes list ([] ++ rest) list).length < fuel := by
        rw [update_self, nil_append]
        rw [hnodes] at hfuel
        exact Nat.lt_of_succ_lt_succ hfuel
      obtain ⟨s', hloop, h'⟩ := ih hunlink hshort
      rw [update_idem] at h'
      refine ⟨s', ?_, h'⟩
      rw [List.head?_cons]
      dsimp only
      rw [h.removeNode_eq (hnodes ▸ mem_cons_self)]
      exact hloop

theorem clear [Fintype Node] (list : Storage) :
    ∃ s', s.clear list = some s' ∧ Holds s' (update nodes list []) :=
  h.clearLoop (Nat.lt_succ_of_le (List.Nodup.length_le_card (h.nodup list)))

end

end Holds

/-! ## Runs -/

/-- What the callers promise: a node is inserted before another one of the list. -/
def Permitted (s : IntrusiveLists Node Storage × Option Node) : Operation Node Storage → Prop
  | .insertBefore list bn n => s.1.contains list bn = true ∧ bn ≠ n
  | _ => True

instance (s : IntrusiveLists Node Storage × Option Node) (op : Operation Node Storage) :
    Decidable (Permitted s op) := by
  cases op <;> unfold Permitted <;> infer_instance

/-- The lists as they are seen from outside: the traversals in both directions give the same
nodes, these are the nodes that `contains` finds, and each of them is in one list only. -/
structure Describes (s : IntrusiveLists Node Storage × Option Node)
    (t : (Storage → List Node) × Option Node) : Prop where
  forward : ∀ list, Linked s.1.mNext (s.1.mFirst list) (t.1 list)
  backward : ∀ list, Linked s.1.mPrev (s.1.mLast list) (t.1 list).reverse
  contains_iff : ∀ list n, s.1.contains list n = true ↔ n ∈ t.1 list
  disjoint : ∀ n list other, n ∈ t.1 list → n ∈ t.1 other → other = list
  returned : s.2 = t.2

theorem Holds.describes (h : Holds s nodes) (node : Option Node) :
    Describes (s, node) (nodes, node) where
  forward := fun list => linked_iff.mpr ⟨h.nodup list, h.mFirst_eq, fun _ hx => h.mNext_eq hx⟩
  backward := fun list => linked_iff.mpr ⟨nodup_reverse.mpr (h.nodup list),
    h.mLast_eq.trans List.head?_reverse.symm, fun _ hx => h.mPrev_eq (mem_reverse.mp hx)⟩
  contains_iff := fun list n => decide_eq_true_iff.trans (h.storage n list)
  disjoint := fun _ _ _ hn hother => h.disjoint hn hother
  returned := rfl

/-- Each operation does to the lists what its name says. -/
theorem Holds.step [Fintype Node] {op : Operation Node Storage} {node : Option Node}
    (h : Holds s nodes) (hop : Permitted (s, node) op) :
    ∃ s', IntrusiveLists.step (s, node) op = some (s', (operate nodes op).2) ∧
      Holds s' (operate nodes op).1 := by
  cases op with
  | append list n =>
    obtain ⟨s', heq, h'⟩ := h.append list n
    exact ⟨s', congrArg (Option.map (·, none)) heq, h'⟩
  | prepend list n =>
    obtain ⟨s', heq, h'⟩ := h.prepend list n
    exact ⟨s', congrArg (Option.map (·, none)) heq, h'⟩
  | insertBefore list bn n =>
    have hbn := (h.storage bn list).mp (of_decide_eq_true hop.1)
    obtain ⟨s', heq, h'⟩ := h.insertBefore hbn hop.2
    exact ⟨s', congrArg (Option.map (·, none)) heq, h'⟩
  | remove list n =>
    obtain ⟨s', heq, h', _⟩ := h.remove_eq n
    exact ⟨s', congrArg (Option.map (·, none)) heq, h'⟩
  | takeFirst list => exact h.takeFirst list
  | takeLast list => exact h.takeLast list
  | clear list =>
    obtain ⟨s', heq, h'⟩ := h.clear list
    exact ⟨s', congrArg (Option.map (·, none)) heq, h'⟩

theorem holds_empty : Holds (empty : IntrusiveLists Node Storage) fun _ => [] where
  threads := fun list => by
    refine ⟨nodup_nil, funext fun p => ?_, funext fun p => ?_⟩ <;> cases p <;> rfl
  storage := fun n list => iff_of_false nofun not_mem_nil

/-- In every run from empty lists, every operation returns and does what its name says to lists
that are described by the nodes and their pointers. -/
theorem intrusiveLists_implement [Fintype Node] {ops : List (Operation Node Storage)}
    (hops : Each IntrusiveLists.step Permitted (empty, none) ops) :
    Implements IntrusiveLists.step (fun t op t' => t' = operate t.1 op) Describes
      (empty, none) (fun _ => [], none) ops := by
  have hdescribes : ∀ (s : IntrusiveLists Node Storage × Option Node)
      (t : (Storage → List Node) × Option Node), Holds s.1 t.1 ∧ s.2 = t.2 → Describes s t := by
    rintro ⟨s, node⟩ ⟨nodes, _⟩ ⟨h, rfl⟩
    exact h.describes node
  refine Implements.of_each hdescribes ?_ ⟨holds_empty, rfl⟩ hops
  · rintro ⟨s, node⟩ ⟨nodes, _⟩ op ⟨h, rfl⟩ hop
    obtain ⟨s', heq, h'⟩ := h.step hop
    exact ⟨(s', (operate nodes op).2), operate nodes op, heq, rfl, h', rfl⟩

end

/-- Three nodes move between two lists. -/
theorem intrusiveLists_implement_three : Implements (@IntrusiveLists.step (Fin 3) Bool _ _ _)
      (fun t op t' => t' = operate t.1 op) Describes (empty, none) (fun _ => [], none)
      [.append false 0, .append true 1, .prepend false 2, .insertBefore false 0 1, .takeLast false,
        .clear false] :=
  intrusiveLists_implement (by decide)

end IntrusiveLists

end Literate.AK
