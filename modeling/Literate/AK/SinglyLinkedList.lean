import Literate.Foundation.Linked
import Literate.Foundation.Run
import Mathlib.Data.List.Perm.Subperm

/-!
# AK: singly linked lists

`AK/SinglyLinkedList.h`, whose misspelt members are read as the ones declared, over a heap of
nodes; a pointer to a node that is not allocated cannot be followed.  `remove` compares the head
with the node behind the one removed where it is to assign it, and `insert_before` never moves
the tail.
-/

namespace Literate.AK

open Foundation Function List Option Nat
open Function (update)

structure SinglyLinkedList.Node (T : Type) where
  value : T
  next : Option Nat

structure SinglyLinkedList (T : Type) where
  /-- The nodes that are allocated, and the address of the next one. -/
  nodes : Nat → Option (SinglyLinkedList.Node T)
  fresh : Nat
  mHead : Option Nat
  mTail : Option Nat

structure SinglyLinkedListIterator where
  mNode : Option Nat
  mPrev : Option Nat
  mNext : Option Nat
  mRemoved : Bool

namespace SinglyLinkedList

variable {T : Type}

def empty : SinglyLinkedList T := ⟨fun _ => none, 0, none, none⟩

variable (s : SinglyLinkedList T)

/-- `new Node`, at the address `fresh`. -/
def newNode (node : Node T) : SinglyLinkedList T :=
  { s with nodes := update s.nodes s.fresh (some node), fresh := s.fresh + 1 }

/-- An assignment to the `next` of a node. -/
def setNext (place next : Option Nat) : Option (SinglyLinkedList T) := do
  let address ← place
  let node ← s.nodes address
  some { s with nodes := update s.nodes address (some { node with next := next }) }

def delete (address : Nat) : SinglyLinkedList T :=
  { s with nodes := update s.nodes address none }

def append (value : T) : Option (SinglyLinkedList T) :=
  let node := s.fresh
  let s := s.newNode ⟨value, none⟩
  match s.mHead with
  | none => some { s with mHead := some node, mTail := some node }
  | some _ => (s.setNext s.mTail (some node)).map fun s => { s with mTail := some node }

def prepend (value : T) : Option (SinglyLinkedList T) :=
  let node := s.fresh
  let s := s.newNode ⟨value, none⟩
  match s.mHead with
  | none => some { s with mHead := some node, mTail := some node }
  | some head => (s.setNext (some node) (some head)).map fun s => { s with mHead := some node }

def takeFirst : Option (T × SinglyLinkedList T) := do
  let prevHead ← s.mHead
  let node ← s.nodes prevHead
  let s := if s.mTail = s.mHead then { s with mTail := none } else s
  some (node.value, { s with mHead := node.next }.delete prevHead)

/-- The loop of `clear`: every node is deleted when its `next` has been read. -/
def clearLoop : Nat → (Nat → Option (Node T)) → Option Nat → Option (Nat → Option (Node T))
  | _, nodes, none => some nodes
  | 0, _, some _ => none
  | fuel + 1, nodes, some address =>
    (nodes address).bind fun node =>
      clearLoop fuel (update nodes address none) node.next

/-- There are no more nodes than addresses have been given out. -/
def clear : Option (SinglyLinkedList T) :=
  (clearLoop s.fresh s.nodes s.mHead).map fun nodes =>
    { s with nodes := nodes, mHead := none, mTail := none }

/-- `begin`. -/
def first : Option SinglyLinkedListIterator :=
  match s.mHead with
  | none => some ⟨none, none, none, false⟩
  | some head => (s.nodes head).map fun node => ⟨some head, none, node.next, false⟩

/-- `++`. -/
def increment (iterator : SinglyLinkedListIterator) : Option SinglyLinkedListIterator :=
  let prev := if iterator.mRemoved then iterator.mPrev else iterator.mNode
  match iterator.mNext with
  | none => some ⟨none, prev, none, false⟩
  | some next => (s.nodes next).map fun node => ⟨some next, prev, node.next, false⟩

/-- The iterator that `++` has brought so far from `begin`. -/
def position : Nat → Option SinglyLinkedListIterator
  | 0 => s.first
  | k + 1 => (position k).bind s.increment

def insertBefore (iterator : SinglyLinkedListIterator) (value : T) : Option (SinglyLinkedList T) :=
  let node := s.fresh
  let s := s.newNode ⟨value, iterator.mNode⟩
  let s := if s.mHead = iterator.mNode then { s with mHead := some node } else s
  match iterator.mPrev with
  | none => some s
  | some prev => s.setNext (some prev) (some node)

def insertAfter (iterator : SinglyLinkedListIterator) (value : T) : Option (SinglyLinkedList T) :=
  match iterator.mNode with
  | none => s.append value
  | some address =>
    (s.nodes address).bind fun place =>
      let node := s.fresh
      ((s.newNode ⟨value, place.next⟩).setNext (some address) (some node)).map fun s =>
        if s.mTail = some address then { s with mTail := some node } else s

/-- `remove`: the head is only compared with the node behind the one that is removed. -/
def remove (iterator : SinglyLinkedListIterator) : Option (SinglyLinkedList T) := do
  let address ← iterator.mNode
  let node ← s.nodes address
  let s := if s.mTail = some address then { s with mTail := iterator.mPrev } else s
  match iterator.mPrev with
  | none => some (s.delete address)
  | some prev => (s.setNext (some prev) node.next).map fun s => s.delete address

/-- An operation; an iterator is given by the steps to it from `begin`. -/
inductive Operation (T : Type)
  | append (value : T)
  | prepend (value : T)
  | takeFirst
  | clear
  | insertBefore (k : Nat) (value : T)
  | insertAfter (k : Nat) (value : T)
  | remove (k : Nat)
  deriving DecidableEq, Repr

/-- An operation on the list, with the value that it returns. -/
def step (s : SinglyLinkedList T × Option T) : Operation T → Option (SinglyLinkedList T × Option T)
  | .append value => (s.1.append value).map fun list => (list, none)
  | .prepend value => (s.1.prepend value).map fun list => (list, none)
  | .takeFirst => s.1.takeFirst.map fun r => (r.2, some r.1)
  | .clear => s.1.clear.map fun list => (list, none)
  | .insertBefore k value =>
    ((s.1.position k).bind fun it => s.1.insertBefore it value).map fun list => (list, none)
  | .insertAfter k value =>
    ((s.1.position k).bind fun it => s.1.insertAfter it value).map fun list => (list, none)
  | .remove k => ((s.1.position k).bind fun it => s.1.remove it).map fun list => (list, none)

/-- No value is inserted before the end, and the first node is not removed. -/
def Repairs (s : SinglyLinkedList T × Option T) : Operation T → Prop
  | .insertBefore k _ => (s.1.position k).any (·.mNode.isSome) = true
  | .remove k => 0 < k
  | _ => True

instance (s : SinglyLinkedList T × Option T) (op : Operation T) : Decidable (Repairs s op) := by
  cases op <;> unfold Repairs <;> infer_instance

/-! ### The list of the values -/

/-- What an operation does to the list of the values, and the value that it returns. -/
def operate (values : List T) : Operation T → List T × Option T
  | .append value => (values ++ [value], none)
  | .prepend value => (value :: values, none)
  | .takeFirst => (values.tail, values.head?)
  | .clear => ([], none)
  | .insertBefore k value => (values.take k ++ value :: values.drop k, none)
  | .insertAfter k value => (values.take (k + 1) ++ value :: values.drop (k + 1), none)
  | .remove k => (values.take k ++ values.drop (k + 1), none)

/-- A value is taken where there is one, and an iterator is in the list or at its end. -/
def Permitted (values : List T) : Operation T → Prop
  | .append _ | .prepend _ | .clear => True
  | .takeFirst => 0 < values.length
  | .insertBefore k _ | .insertAfter k _ => k ≤ values.length
  | .remove k => k < values.length

instance (values : List T) (op : Operation T) : Decidable (Permitted values op) := by
  cases op <;> unfold Permitted <;> infer_instance

/-- The link of a node. -/
def nextIn (nodes : Nat → Option (Node T)) (address : Nat) : Option Nat :=
  (nodes address).bind Node.next

/-- The value of a node. -/
def valueIn (nodes : Nat → Option (Node T)) (address : Nat) : Option T :=
  (nodes address).map Node.value

/-- The nodes from the head on hold the values, and the tail is the last of them. -/
structure Holds (s : SinglyLinkedList T) (chain : List Nat) (values : List T) : Prop where
  linked : Linked (nextIn s.nodes) s.mHead chain
  stored : chain.map (valueIn s.nodes) = values.map some
  tail : s.mTail = chain.getLast?

/-- The list has the values, and the operation has returned the same. -/
def Describes (s : SinglyLinkedList T × Option T) (t : List T × Option T) : Prop :=
  (∃ chain, Holds s.1 chain t.1) ∧ s.2 = t.2

/-- Addresses that are not given out yet are not those of nodes. -/
structure Sound (s : SinglyLinkedList T) (chain : List Nat) (values : List T) : Prop
    extends Holds s chain values where
  old : ∀ address ∈ chain, address < s.fresh

section Heap

variable {nodes : Nat → Option (Node T)} {address : Nat} {node : Node T}

section

variable (nodes : Nat → Option (Node T)) (address : Nat)

theorem nextIn_update (node : Node T) : nextIn (update nodes address (some node)) =
      update (nextIn nodes) address node.next :=
  comp_update (fun node : Option (Node T) => node.bind Node.next) nodes address (some node)

theorem valueIn_update (node : Node T) : valueIn (update nodes address (some node)) =
      update (valueIn nodes) address (some node.value) :=
  comp_update (fun node : Option (Node T) => node.map Node.value) nodes address (some node)

theorem nextIn_delete : nextIn (update nodes address none) = update (nextIn nodes) address none :=
  comp_update (fun node : Option (Node T) => node.bind Node.next) nodes address none

theorem valueIn_delete :
    valueIn (update nodes address none) = update (valueIn nodes) address none :=
  comp_update (fun node : Option (Node T) => node.map Node.value) nodes address none

end

theorem map_update_of_notMem {valueOf : Nat → Option T} {chain : List Nat} (h : address ∉ chain)
    (v : Option T) : chain.map (update valueOf address v) = chain.map valueOf :=
  map_congr_left fun _ hother => update_of_ne (ne_of_mem_of_not_mem hother h) _ _

/-- Writing its link leaves the values of a node and of all others. -/
theorem setNext_spec {s : SinglyLinkedList T} (hnode : s.nodes address = some node)
    (next : Option Nat) :
    ∃ nodes', s.setNext (some address) next = some { s with nodes := nodes' } ∧
      nextIn nodes' = update (nextIn s.nodes) address next ∧
      valueIn nodes' = valueIn s.nodes := by
  refine ⟨update s.nodes address (some { node with next := next }),
    by rw [setNext]; simp only [bind_eq_bind, bind_some, hnode],
    nextIn_update s.nodes address _, ?_⟩
  rw [valueIn_update]
  refine update_eq_self_iff.mpr ?_
  rw [valueIn, hnode, map_some]

theorem stored_insert {before after : List Nat} {values values' : List T} {value : T}
    {valueOf : Nat → Option T} {new : Nat} (hlength : before.length = values.length)
    (hstored : (before ++ after).map valueOf = (values ++ values').map some)
    (hnew : new ∉ before ++ after) :
    (before ++ new :: after).map (update valueOf new (some value)) =
      (values ++ value :: values').map some := by
  rw [mem_append, not_or] at hnew
  simp only [map_append] at hstored
  obtain ⟨hbefore, hafter⟩ := append_inj hstored (by simpa using hlength)
  simp only [map_append, map_cons, update_self, map_update_of_notMem hnew.1,
    map_update_of_notMem hnew.2, hbefore, hafter]

end Heap

section Operations

variable {s : SinglyLinkedList T} {chain before after : List Nat} {values values' : List T}
  {value : T} {x y : Nat}

theorem Holds.allocated (h : Holds s chain values) (hx : x ∈ chain) :
    ∃ node, s.nodes x = some node ∧ node.next = nextIn s.nodes x := by
  have hmem : valueIn s.nodes x ∈ values.map some := h.stored ▸ List.mem_map_of_mem hx
  obtain ⟨_, -, hvalue⟩ := List.mem_map.mp hmem
  obtain ⟨node, hnode, -⟩ := map_eq_some_iff.mp hvalue.symm
  exact ⟨node, hnode, by rw [nextIn, hnode, bind_some]⟩

theorem Holds.length_eq (h : Holds s chain values) : chain.length = values.length := by
  simpa using congrArg List.length h.stored

theorem Sound.fresh_notMem (h : Sound s chain values) : s.fresh ∉ chain := fun hmem =>
  Nat.lt_irrefl _ (h.old _ hmem)

theorem holds_unique {chain' : List Nat} (h : Holds s chain values) (h' : Holds s chain' values') :
    chain = chain' ∧ values = values' := by
  obtain rfl := h.linked.unique h'.linked
  exact ⟨rfl, map_injective_iff.mpr (fun _ _ => some.inj)
    (h.stored.symm.trans h'.stored)⟩

theorem Holds.position (h : Holds s chain values) {k : Nat} (hk : k ≤ chain.length) :
    s.position k = some ⟨chain[k]?, if k = 0 then none else chain[k - 1]?, chain[k + 1]?, false⟩ := by
  induction k with
  | zero =>
    rw [SinglyLinkedList.position, first, if_pos rfl, ← List.head?_eq_getElem?, h.linked.head?_eq]
    cases hhead : s.mHead with
    | none =>
      obtain rfl := Linked.none_iff.mp (hhead ▸ h.linked)
      rfl
    | some head =>
      have hfirst : chain[0]? = some head := by
        rw [← List.head?_eq_getElem?, h.linked.head?_eq, hhead]
      obtain ⟨node, hnode, hnext⟩ := h.allocated (mem_of_getElem? hfirst)
      simp [hnode, hnext, h.linked.next_getElem hfirst]
  | succ k ih =>
    rw [SinglyLinkedList.position, ih (le_of_succ_le hk), bind_some, increment,
      if_neg Bool.false_ne_true, if_neg (succ_ne_zero k), Nat.add_sub_cancel]
    cases hnext : chain[k + 1]? with
    | none =>
      have hend : chain[k + 1 + 1]? = none :=
        List.getElem?_eq_none (le_succ_of_le (List.getElem?_eq_none_iff.mp hnext))
      simp only [hend]
    | some next =>
      obtain ⟨node, hnode, hlink⟩ := h.allocated (mem_of_getElem? hnext)
      simp [hnode, hlink, h.linked.next_getElem hnext]

theorem Sound.push (h : Sound s chain values) {nodes : Nat → Option (Node T)} {tail : Option Nat}
    (hnext : nextIn nodes = update (nextIn s.nodes) s.fresh s.mHead)
    (hvalue : valueIn nodes = update (valueIn s.nodes) s.fresh (some value))
    (htail : tail = (s.fresh :: chain).getLast?) :
    Sound ⟨nodes, s.fresh + 1, some s.fresh, tail⟩ (s.fresh :: chain) (value :: values) := by
  refine ⟨⟨?_, ?_, htail⟩, ?_⟩
  · rw [hnext]
    exact h.linked.push h.fresh_notMem
  · rw [hvalue]
    exact @stored_insert T [] chain [] values value _ _ rfl h.stored h.fresh_notMem
  · exact forall_mem_cons.mpr ⟨Nat.lt_succ_self _, fun a ha => lt_succ_of_lt (h.old a ha)⟩

/-- A node that is linked behind `x`. -/
theorem Sound.insertBehind (h : Sound s (before ++ x :: after) (values ++ values'))
    (hlength : before.length + 1 = values.length) (value : T) :
    ∃ nodes, (s.newNode ⟨value, nextIn s.nodes x⟩).setNext (some x) (some s.fresh) =
        some { s with nodes := nodes, fresh := s.fresh + 1 } ∧
      ∀ tail, tail = (before ++ x :: s.fresh :: after).getLast? →
        Sound ⟨nodes, s.fresh + 1, s.mHead, tail⟩ (before ++ x :: s.fresh :: after)
          (values ++ value :: values') := by
  have hx : x ∈ before ++ x :: after := mem_append_right _ mem_cons_self
  obtain ⟨node, hnode, -⟩ := h.allocated hx
  have hne : x ≠ s.fresh := fun heq => h.fresh_notMem (heq ▸ hx)
  have hnode' : (s.newNode ⟨value, nextIn s.nodes x⟩).nodes x = some node :=
    (update_of_ne hne _ _).trans hnode
  obtain ⟨nodes, hset, hnext, hvalue⟩ := setNext_spec hnode' (some s.fresh)
  rw [newNode, nextIn_update] at hnext
  rw [newNode, valueIn_update] at hvalue
  refine ⟨nodes, hset, fun tail htail => ⟨⟨?_, ?_, htail⟩, ?_⟩⟩
  · rw [hnext]
    exact h.linked.insert h.fresh_notMem
  · have hsplit : before ++ x :: after = (before ++ [x]) ++ after := by simp
    have hstored := h.stored
    have hfresh := h.fresh_notMem
    rw [hsplit] at hstored hfresh
    have hlength' : (before ++ [x]).length = values.length := by simpa using hlength
    rw [hvalue]
    simpa using stored_insert hlength' hstored hfresh
  · intro a ha
    have hcases : a = s.fresh ∨ a ∈ before ++ x :: after := by
      simp only [mem_append, mem_cons] at ha ⊢
      tauto
    rcases hcases with rfl | hold
    · exact Nat.lt_succ_self _
    · exact lt_succ_of_lt (h.old a hold)

theorem split_at {l : List Nat} {k : Nat} (hx : l[k]? = some x) :
    l = l.take k ++ x :: l.drop (k + 1) := by
  obtain ⟨hk, rfl⟩ := List.getElem?_eq_some_iff.mp hx
  rw [getElem_cons_drop, take_append_drop]

/-- The same by the place of `x`. -/
theorem Sound.insertBehindAt (h : Sound s chain values) {j : Nat} (hx : chain[j]? = some x)
    (value : T) : ∃ nodes, (s.newNode ⟨value, nextIn s.nodes x⟩).setNext (some x) (some s.fresh) =
        some { s with nodes := nodes, fresh := s.fresh + 1 } ∧
      ∀ tail, tail = (chain.take j ++ x :: s.fresh :: chain.drop (j + 1)).getLast? →
        Sound ⟨nodes, s.fresh + 1, s.mHead, tail⟩
          (chain.take j ++ x :: s.fresh :: chain.drop (j + 1))
          (values.take (j + 1) ++ value :: values.drop (j + 1)) := by
  have hj := (List.getElem?_eq_some_iff.mp hx).1
  have hlength := h.length_eq
  have hsplit : Sound s (chain.take j ++ x :: chain.drop (j + 1))
      (values.take (j + 1) ++ values.drop (j + 1)) := by
    rw [← split_at hx, take_append_drop]
    exact h
  refine hsplit.insertBehind ?_ value
  simp only [List.length_take]
  omega

/-- The tail is `x` exactly when no node follows that. -/
theorem tail_eq_iff (h : Holds s (before ++ x :: after) values) :
    s.mTail = some x ↔ after = [] := by
  rw [h.tail]
  rcases eq_nil_or_concat after with rfl | ⟨after, y, rfl⟩
  · simp
  · have hne : x ≠ y := by
      have hnodup := (h.linked.suffix).nodup
      rintro rfl
      exact (nodup_cons.mp hnodup).1 (by simp)
    have hlast : before ++ x :: after.concat y = (before ++ x :: after) ++ [y] := by simp
    rw [hlast, List.getLast?_concat]
    simpa using hne.symm

theorem Sound.single (h : Sound s [] values) (value : T) :
    Sound { s.newNode ⟨value, none⟩ with mHead := some s.fresh, mTail := some s.fresh } [s.fresh]
      (value :: values) := by
  have hhead : s.mHead = none := h.linked
  exact h.push (by rw [hhead]; exact nextIn_update _ _ _) (valueIn_update _ _ _) rfl

theorem Sound.append (h : Sound s chain values) (value : T) :
    ∃ s' chain', s.append value = some s' ∧ Sound s' chain' (values ++ [value]) := by
  rcases eq_nil_or_concat chain with rfl | ⟨before, x, rfl⟩
  · have hvalues : values = [] := length_eq_zero_iff.mp h.length_eq.symm
    have hhead : s.mHead = none := h.linked
    subst hvalues
    exact ⟨_, _, by rw [SinglyLinkedList.append, newNode]; simp only [hhead], h.single value⟩
  · rw [concat_eq_append] at h
    have hlength := h.length_eq
    have hend : nextIn s.nodes x = none := (h.linked.suffix).2
    have htail : s.mTail = some x := (tail_eq_iff h.toHolds).mpr rfl
    obtain ⟨head, hhead⟩ : ∃ head, s.mHead = some head := by
      rw [← h.linked.head?_eq]
      cases before <;> exact ⟨_, rfl⟩
    have hall : Sound s (before ++ x :: []) (values ++ []) := by rwa [append_nil]
    obtain ⟨nodes, hset, hsound⟩ := hall.insertBehind (by simpa using hlength) value
    rw [hend] at hset
    refine ⟨_, _, ?_, hsound (some s.fresh) (by simp)⟩
    rw [SinglyLinkedList.append]
    simp only [newNode, hhead, htail] at hset ⊢
    rw [hset]
    rfl

theorem Sound.pushFront (h : Sound s (y :: chain) values) (value : T) :
    Sound { s.newNode ⟨value, some y⟩ with mHead := some s.fresh } (s.fresh :: y :: chain)
      (value :: values) := by
  have hhead : s.mHead = some y := h.linked.1
  exact h.push (by rw [hhead]; exact nextIn_update _ _ _) (valueIn_update _ _ _)
    (by rw [List.getLast?_cons_cons]; exact h.tail)

theorem Sound.prepend (h : Sound s chain values) (value : T) :
    ∃ s' chain', s.prepend value = some s' ∧ Sound s' chain' (value :: values) := by
  cases chain with
  | nil =>
    have hhead : s.mHead = none := h.linked
    exact ⟨_, _, by rw [SinglyLinkedList.prepend, newNode]; simp only [hhead], h.single value⟩
  | cons y chain =>
    have hhead : s.mHead = some y := h.linked.1
    refine ⟨_, _, ?_, h.pushFront value⟩
    simp only [SinglyLinkedList.prepend, newNode]
    simp only [hhead, setNext, bind_eq_bind, bind_some, update_self,
      update_idem, map_some]

theorem Sound.takeFirst {rest : List T} (h : Sound s chain (value :: rest)) :
    ∃ s' chain', s.takeFirst = some (value, s') ∧ Sound s' chain' rest := by
  cases chain with
  | nil => exact absurd h.length_eq (by simp)
  | cons y after =>
    have hhead : s.mHead = some y := h.linked.1
    obtain ⟨node, hnode, hnext⟩ := h.allocated mem_cons_self
    have hstored := h.stored
    simp only [map_cons, List.cons.injEq] at hstored
    have hvalue : node.value = value := by
      have hfirst := hstored.1
      rw [valueIn, hnode] at hfirst
      exact some.inj hfirst
    have hy : y ∉ after := (nodup_cons.mp h.linked.nodup).1
    have htail : (if s.mTail = s.mHead then none else s.mTail) = after.getLast? := by
      have hiff : s.mTail = some y ↔ after = [] := 
        tail_eq_iff (show Holds s ([] ++ y :: after) (value :: rest) from h.toHolds)
      rw [hhead]
      by_cases hlast : after = []
      · rw [if_pos (hiff.mpr hlast), hlast]
        rfl
      · rw [if_neg (mt hiff.mp hlast), h.tail]
        obtain ⟨z, l, rfl⟩ := exists_cons_of_ne_nil hlast
        exact List.getLast?_cons_cons
    refine ⟨⟨update s.nodes y none, s.fresh, node.next, after.getLast?⟩, after, ?_, ?_⟩
    · rw [SinglyLinkedList.takeFirst, ← htail, ← hvalue]
      simp [hhead, hnode]
      split <;> rfl
    · refine ⟨⟨?_, ?_, rfl⟩, fun a ha => h.old a (mem_cons_of_mem y ha)⟩
      · rw [nextIn_delete, hnext]
        exact h.linked.2.update_of_notMem hy none
      · rw [valueIn_delete, map_update_of_notMem hy]
        exact hstored.2

theorem clearLoop_isSome {nodes : Nat → Option (Node T)} {p : Option Nat} {fuel : Nat}
    (hlinked : Linked (nextIn nodes) p chain) (hallocated : ∀ a ∈ chain, (nodes a).isSome)
    (hfuel : chain.length ≤ fuel) : ∃ nodes', clearLoop fuel nodes p = some nodes' := by
  induction chain generalizing nodes p fuel with
  | nil =>
    obtain rfl := hlinked
    exact ⟨nodes, by cases fuel <;> rfl⟩
  | cons a chain ih =>
    have ha := (nodup_cons.mp hlinked.nodup).1
    obtain ⟨rfl, hrest⟩ := hlinked
    obtain ⟨node, hnode⟩ := isSome_iff_exists.mp (hallocated a mem_cons_self)
    cases fuel with
    | zero => exact absurd hfuel (by simp)
    | succ fuel =>
      have hnext : nextIn nodes a = node.next := by rw [nextIn, hnode, bind_some]
      rw [clearLoop, hnode, bind_some, ← hnext]
      refine ih ?_ (fun b hb => ?_) (le_of_succ_le_succ hfuel)
      · rw [nextIn_delete]
        exact hrest.update_of_notMem ha none
      · rw [update_of_ne (ne_of_mem_of_not_mem hb ha)]
        exact hallocated b (mem_cons_of_mem a hb)

theorem Sound.clear (h : Sound s chain values) : ∃ s', s.clear = some s' ∧ Sound s' [] [] := by
  have hlength : chain.length ≤ s.fresh := by
    have hsubset : chain ⊆ List.range s.fresh := fun a ha => mem_range.mpr (h.old a ha)
    simpa using (subperm_of_subset h.linked.nodup hsubset).length_le
  obtain ⟨nodes, hclear⟩ := clearLoop_isSome h.linked (fun a ha => by
    obtain ⟨node, hnode, -⟩ := h.allocated ha
    exact isSome_iff_exists.mpr ⟨node, hnode⟩) hlength
  refine ⟨{ s with nodes := nodes, mHead := none, mTail := none }, ?_,
    ⟨⟨rfl, rfl, rfl⟩, fun _ hmem => nomatch hmem⟩⟩
  rw [SinglyLinkedList.clear, hclear]
  rfl

theorem getLast?_insert (new : Nat) (hne : after ≠ []) :
    (before ++ x :: new :: after).getLast? = (before ++ x :: after).getLast? := by
  obtain ⟨after, y, rfl⟩ := (eq_nil_or_concat after).resolve_left hne
  have hlong : before ++ x :: new :: after.concat y = (before ++ x :: new :: after) ++ [y] := by simp
  have hshort : before ++ x :: after.concat y = (before ++ x :: after) ++ [y] := by simp
  simp only [hlong, hshort, List.getLast?_concat]

section

variable (h : Sound s chain values)

include h

theorem Sound.insertBefore {k : Nat} (hk : k < chain.length)
    (value : T) : ∃ it s' chain', s.position k = some it ∧ it.mNode.isSome = true ∧
      s.insertBefore it value = some s' ∧
        Sound s' chain' (values.take k ++ value :: values.drop k) := by
  obtain ⟨y, hy⟩ : ∃ y, chain[k]? = some y := ⟨chain[k], List.getElem?_eq_getElem hk⟩
  cases k with
  | zero =>
    cases chain with
    | nil => exact absurd hk (Nat.lt_irrefl 0)
    | cons first chain =>
      obtain rfl := some.inj hy
      have hhead : s.mHead = some first := h.linked.1
      refine ⟨_, _, _, h.position (Nat.zero_le _), rfl, ?_, h.pushFront value⟩
      rw [SinglyLinkedList.insertBefore, newNode]
      simp only [hhead, List.getElem?_cons_zero, if_true]
      rfl
  | succ j =>
    have hj : j < chain.length := lt_of_succ_lt hk
    obtain ⟨x, hx⟩ : ∃ x, chain[j]? = some x := ⟨chain[j], List.getElem?_eq_getElem hj⟩
    obtain ⟨nodes, hset, hsound⟩ := h.insertBehindAt hx value
    have hbehind : chain.drop (j + 1) ≠ [] := by simpa using hk
    have hhead : s.mHead ≠ some y := by
      rw [← h.linked.head?_eq, List.head?_eq_getElem?]
      intro heq
      have hsame := (List.getElem?_inj (by omega) h.linked.nodup).mp (heq.trans hy.symm)
      exact absurd hsame (succ_ne_zero j).symm
    refine ⟨_, _, _, h.position (Nat.le_of_lt hk), by rw [hy]; rfl, ?_, hsound s.mTail ?_⟩
    · rw [h.linked.next_getElem hx, hy] at hset
      rw [SinglyLinkedList.insertBefore]
      simp only [hy, if_neg (succ_ne_zero j), Nat.add_sub_cancel, hx]
      rw [if_neg (by exact hhead), hset]
    · rw [getLast?_insert s.fresh hbehind, ← split_at hx, h.tail]

theorem Sound.insertAfter {k : Nat} (hk : k ≤ chain.length) (value : T) :
    ∃ it s' chain', s.position k = some it ∧ s.insertAfter it value = some s' ∧
      Sound s' chain' (values.take (k + 1) ++ value :: values.drop (k + 1)) := by
  rcases Nat.lt_or_eq_of_le hk with hlt | rfl
  · obtain ⟨x, hx⟩ : ∃ x, chain[k]? = some x := ⟨chain[k], List.getElem?_eq_getElem hlt⟩
    obtain ⟨node, hnode, hnext⟩ := h.allocated (mem_of_getElem? hx)
    obtain ⟨nodes, hset, hsound⟩ := h.insertBehindAt hx value
    have hiff : s.mTail = some x ↔ chain.drop (k + 1) = [] := tail_eq_iff (split_at hx ▸ h.toHolds)
    refine ⟨_, _, _, h.position hk, ?_,
      hsound (if s.mTail = some x then some s.fresh else s.mTail) ?_⟩
    · rw [SinglyLinkedList.insertAfter]
      simp [hx, hnode, hnext, hset]
      split <;> rfl
    · by_cases hlast : chain.drop (k + 1) = []
      · rw [if_pos (hiff.mpr hlast), hlast]
        simp
      · rw [if_neg (mt hiff.mp hlast), getLast?_insert s.fresh hlast, ← split_at hx, h.tail]
  · -- At the end the value is appended.
    obtain ⟨s', chain', hs', hsound⟩ := h.append value
    have hend : ∀ l : List T, values.length ≤ chain.length + 1 →
        values.take (chain.length + 1) ++ value :: values.drop (chain.length + 1) =
          values ++ [value] := fun _ hle => by
      rw [take_of_length_le hle, drop_eq_nil_of_le hle]
    refine ⟨_, s', chain', h.position hk, ?_, ?_⟩
    · rw [SinglyLinkedList.insertAfter]
      simp [hs']
    · rw [hend values (by rw [h.length_eq]; omega)]
      exact hsound

theorem Sound.remove {k : Nat} (hk : k < chain.length) (hpos : 0 < k) :
    ∃ it s' chain', s.position k = some it ∧ s.remove it = some s' ∧
      Sound s' chain' (values.take k ++ values.drop (k + 1)) := by
  obtain ⟨j, rfl⟩ : ∃ j, k = j + 1 := ⟨k - 1, by omega⟩
  have hj : j < chain.length := lt_of_succ_lt hk
  obtain ⟨x, hx⟩ : ∃ x, chain[j]? = some x := ⟨chain[j], List.getElem?_eq_getElem hj⟩
  obtain ⟨y, hy⟩ : ∃ y, chain[j + 1]? = some y := ⟨chain[j + 1], List.getElem?_eq_getElem hk⟩
  obtain ⟨node, hnode, hnext⟩ := h.allocated (mem_of_getElem? hy)
  obtain ⟨place, hplace, -⟩ := h.allocated (mem_of_getElem? hx)
  have htwo : chain = chain.take j ++ x :: y :: chain.drop (j + 2) := by
    have hdrop : chain.drop (j + 1) = y :: chain.drop (j + 2) := by
      obtain ⟨_, rfl⟩ := List.getElem?_eq_some_iff.mp hy
      exact drop_eq_getElem_cons hk
    rw [← hdrop]
    exact split_at hx
  have hone : chain.take j ++ x :: chain.drop (j + 2) = chain.take (j + 1) ++ chain.drop (j + 2) := by
    rw [take_add_one, hx]
    simp
  have hnodup := h.linked.nodup
  have hy' : y ∉ chain.take j ++ x :: chain.drop (j + 2) := by
    rw [htwo] at hnodup
    intro hmem
    have hmiddle : (y :: (chain.take j ++ x :: chain.drop (j + 2))).Nodup := by
      refine (List.Perm.nodup_iff ?_).mp hnodup
      have hsplit : chain.take j ++ x :: y :: chain.drop (j + 2) =
          (chain.take j ++ [x]) ++ y :: chain.drop (j + 2) := by simp
      rw [hsplit]
      exact perm_middle.trans (by simp)
    exact (nodup_cons.mp hmiddle).1 hmem
  have hsame : (if s.mTail = some y then { s with mTail := some x } else s).nodes = s.nodes := by
    split <;> rfl
  have hplace' : (if s.mTail = some y then { s with mTail := some x } else s).nodes x = some place := by
    rw [hsame]
    exact hplace
  obtain ⟨nodes, hset, hlink, hvalue⟩ := setNext_spec hplace' node.next
  rw [hsame] at hlink hvalue
  have hlinked := h.linked
  rw [htwo] at hlinked
  have htail : (if s.mTail = some y then some x else s.mTail) =
      (chain.take j ++ x :: chain.drop (j + 2)).getLast? := by
    have hholds : Holds s (chain.take (j + 1) ++ y :: chain.drop (j + 2)) values :=
      split_at hy ▸ h.toHolds
    have hiff := tail_eq_iff hholds
    by_cases hlast : chain.drop (j + 2) = []
    · rw [if_pos (hiff.mpr hlast), hlast]
      simp
    · rw [if_neg (mt hiff.mp hlast), ← getLast?_insert y hlast, ← htwo, h.tail]
  refine ⟨_, ⟨update nodes y none, s.fresh, s.mHead,
    if s.mTail = some y then some x else s.mTail⟩, _, h.position (Nat.le_of_lt hk), ?_,
    ⟨⟨?_, ?_, htail⟩, fun a ha => ?_⟩⟩
  · rw [SinglyLinkedList.remove]
    simp only [hy, hnode, if_neg (succ_ne_zero j), Nat.add_sub_cancel, hx,
      bind_eq_bind, bind_some, hset, map_some]
    split <;> rfl
  · rw [nextIn_delete, hlink, hnext]
    exact hlinked.skip.update_of_notMem hy' none
  · rw [valueIn_delete, map_update_of_notMem hy', hvalue, hone, map_append,
      map_take, map_drop, h.stored, map_append, map_take, map_drop]
  · rw [hone] at ha
    exact h.old a ((mem_append.mp ha).elim mem_of_mem_take mem_of_mem_drop)

/-! ### Where the pointers are not repaired -/

theorem Sound.not_holds_insertBefore {it : SinglyLinkedListIterator}
    {s' : SinglyLinkedList T} (hit : s.position chain.length = some it)
    (hs' : s.insertBefore it value = some s') (chain' : List Nat) (values' : List T) :
    ¬ Holds s' chain' values' := by
  intro h'
  rw [h.position (Nat.le_refl _), some.injEq] at hit
  rcases eq_nil_or_concat chain with rfl | ⟨before, x, rfl⟩
  · have hhead : s.mHead = none := h.linked
    have htail : s.mTail = none := h.tail
    rw [← hit, SinglyLinkedList.insertBefore, newNode] at hs'
    simp only [length_nil, List.getElem?_nil, if_true, hhead, some.injEq] at hs'
    subst hs'
    obtain ⟨rest, rfl, -⟩ := Linked.some_iff.mp h'.linked
    have hlast := h'.tail
    rw [htail, List.getLast?_cons] at hlast
    cases hlast
  · rw [concat_eq_append] at h hit
    have hend : nextIn s.nodes x = none := (h.linked.suffix).2
    have htail : s.mTail = some x := (tail_eq_iff h.toHolds).mpr rfl
    have hall : Sound s (before ++ x :: []) (values ++ []) := by rwa [append_nil]
    obtain ⟨nodes, hset, hsound⟩ := hall.insertBehind (by simpa using h.length_eq) value
    have hlinked := (hsound (some s.fresh) (by simp)).linked
    have hhead : s.mHead ≠ none := by
      rw [← h.linked.head?_eq]
      cases before <;> simp
    rw [hend] at hset
    rw [← hit, SinglyLinkedList.insertBefore] at hs'
    simp only [length_append, length_singleton, Nat.add_sub_cancel,
      if_neg (succ_ne_zero before.length), List.getElem?_concat_length] at hs'
    rw [List.getElem?_eq_none (by simp), if_neg (by exact hhead), hset, some.injEq] at hs'
    subst hs'
    have hsame := h'.linked.unique hlinked
    have hlast := h'.tail
    rw [hsame] at hlast
    have hx : x = s.fresh := by simpa [htail] using hlast
    exact h.fresh_notMem (hx ▸ mem_append_right before mem_cons_self)

/-- The head stays at the first node when that is removed. -/
theorem Sound.not_holds_remove (hpos : 0 < chain.length)
    {it : SinglyLinkedListIterator} {s' : SinglyLinkedList T} (hit : s.position 0 = some it)
    (hs' : s.remove it = some s') (chain' : List Nat) (values' : List T) :
    ¬ Holds s' chain' values' := by
  intro h'
  rw [h.position (Nat.zero_le _), some.injEq] at hit
  obtain ⟨y, after, rfl⟩ := exists_cons_of_ne_nil (length_pos_iff.mp hpos)
  have hhead : s.mHead = some y := h.linked.1
  obtain ⟨node, hnode, -⟩ := h.allocated mem_cons_self
  rw [← hit, SinglyLinkedList.remove] at hs'
  simp only [List.getElem?_cons_zero, if_true, bind_eq_bind, bind_some, hnode,
    some.injEq] at hs'
  have hhead' : s'.mHead = some y := by
    rw [← hs', delete]
    split <;> exact hhead
  have hgone : s'.nodes y = none := by
    rw [← hs', delete]
    exact update_self _ _ _
  obtain ⟨rest, rfl, -⟩ := Linked.some_iff.mp (hhead' ▸ h'.linked)
  obtain ⟨_, hsome, -⟩ := h'.allocated mem_cons_self
  rw [hgone] at hsome
  cases hsome

end

/-! ### Runs -/

/-- An operation that the pointers are repaired after does what it does to the list. -/
theorem Sound.step (h : Sound s chain values) {r : Option T} {op : Operation T}
    (hpermitted : Permitted values op) (hrepairs : Repairs (s, r) op) :
    ∃ s' chain', SinglyLinkedList.step (s, r) op = some (s', (operate values op).2) ∧
      Sound s' chain' (operate values op).1 := by
  have hlength := h.length_eq
  cases op with
  | append value =>
    obtain ⟨s', chain', hs', hsound⟩ := h.append value
    exact ⟨s', chain', by rw [SinglyLinkedList.step, hs']; rfl, hsound⟩
  | prepend value =>
    obtain ⟨s', chain', hs', hsound⟩ := h.prepend value
    exact ⟨s', chain', by rw [SinglyLinkedList.step, hs']; rfl, hsound⟩
  | takeFirst =>
    obtain ⟨value, rest, rfl⟩ := exists_cons_of_ne_nil (length_pos_iff.mp hpermitted)
    obtain ⟨s', chain', hs', hsound⟩ := h.takeFirst
    exact ⟨s', chain', by rw [SinglyLinkedList.step, hs']; rfl, hsound⟩
  | clear =>
    obtain ⟨s', hs', hsound⟩ := h.clear
    exact ⟨s', [], by rw [SinglyLinkedList.step, hs']; rfl, hsound⟩
  | insertBefore k value =>
    have hk : k < chain.length := by
      by_contra hge
      rw [Permitted] at hpermitted
      have hend : k = chain.length := by omega
      rw [Repairs, h.position (by omega), hend] at hrepairs
      simp at hrepairs
    obtain ⟨it, s', chain', hit, -, hs', hsound⟩ := h.insertBefore hk value
    exact ⟨s', chain', by rw [SinglyLinkedList.step, hit, bind_some, hs']; rfl, hsound⟩
  | insertAfter k value =>
    have hk : k ≤ chain.length := by
      rw [Permitted] at hpermitted
      omega
    obtain ⟨it, s', chain', hit, hs', hsound⟩ := h.insertAfter hk value
    exact ⟨s', chain', by rw [SinglyLinkedList.step, hit, bind_some, hs']; rfl, hsound⟩
  | remove k =>
    have hk : k < chain.length := by
      rw [Permitted] at hpermitted
      omega
    obtain ⟨it, s', chain', hit, hs', hsound⟩ := h.remove hk hrepairs
    exact ⟨s', chain', by rw [SinglyLinkedList.step, hit, bind_some, hs']; rfl, hsound⟩

theorem Sound.not_describes (h : Sound s chain values) {r : Option T} {op : Operation T}
    (hpermitted : Permitted values op) (hrepairs : ¬ Repairs (s, r) op)
    {s' : SinglyLinkedList T × Option T} (hs' : SinglyLinkedList.step (s, r) op = some s')
    (t : List T × Option T) : ¬ Describes s' t := by
  have hlength := h.length_eq
  rintro ⟨⟨chain', h'⟩, -⟩
  cases op with
  | append value | prepend value | takeFirst | clear | insertAfter k value => exact hrepairs trivial
  | insertBefore k value =>
    rw [Permitted] at hpermitted
    by_cases hk : k < chain.length
    · obtain ⟨it, _, _, hit, hsome, -⟩ := h.insertBefore hk value
      refine hrepairs ?_
      rw [Repairs, hit]
      exact hsome
    · obtain rfl : k = chain.length := by omega
      rw [SinglyLinkedList.step, h.position (Nat.le_refl _), bind_some] at hs'
      obtain ⟨list, hlist, rfl⟩ := map_eq_some_iff.mp hs'
      exact h.not_holds_insertBefore (h.position (Nat.le_refl _)) hlist chain' t.1 h'
  | remove k =>
    obtain rfl : k = 0 := Nat.eq_zero_of_not_pos hrepairs
    rw [SinglyLinkedList.step, h.position (Nat.zero_le _), bind_some] at hs'
    obtain ⟨list, hlist, rfl⟩ := map_eq_some_iff.mp hs'
    exact h.not_holds_remove (by rw [Permitted] at hpermitted; omega)
      (h.position (Nat.zero_le _)) hlist chain' t.1 h'

end Operations

/-- What the operations do to the list of the values, as a system of its own. -/
def operateStep (values : List T) (op : Operation T) : Option (List T) :=
  some (operate values op).1

theorem sound_empty : Sound (empty : SinglyLinkedList T) [] [] :=
  ⟨⟨rfl, rfl, rfl⟩, fun _ hmem => nomatch hmem⟩

/-- A run of operations does to the list what they do exactly when it nowhere inserts before
the end or removes the first node. -/
theorem implements_iff_repairs {ops : List (Operation T)}
    (hops : Each operateStep Permitted [] ops) :
    Implements SinglyLinkedList.step (fun t op t' => t' = operate t.1 op) Describes (empty, none)
        ([], none) ops ↔
      Each SinglyLinkedList.step Repairs (empty, none) ops := by
  have hdescribes : ∀ (as : List (Operation T)) (s : SinglyLinkedList T × Option T)
      (t : List T × Option T),
      (∃ chain, Sound s.1 chain t.1) ∧ s.2 = t.2 ∧ Each operateStep Permitted t.1 as →
        Describes s t := by
    rintro as s t ⟨⟨chain, h⟩, hreturned, -⟩
    exact ⟨⟨chain, h.toHolds⟩, hreturned⟩
  refine implements_iff_each hdescribes ?_ ?_ ?_ ⟨⟨[], sound_empty⟩, rfl, hops⟩
  · rintro s ⟨values, r⟩ ⟨values', r'⟩ ⟨⟨chain, h⟩, hr⟩ ⟨⟨chain', h'⟩, hr'⟩
    exact Prod.ext (holds_unique h h').2 (hr.symm.trans hr')
  · rintro op as ⟨s, r⟩ ⟨values, _⟩ ⟨⟨chain, h⟩, rfl, hpermitted, hrest⟩ hrepairs
    obtain ⟨s', chain', hs', hsound⟩ := h.step hpermitted hrepairs
    exact ⟨(s', (operate values op).2), operate values op, hs', rfl, ⟨chain', hsound⟩, rfl,
      hrest _ rfl⟩
  · rintro op as ⟨s, r⟩ ⟨values, _⟩ ⟨⟨chain, h⟩, rfl, hpermitted, -⟩ hrepairs s' t' hs' -
    exact h.not_describes hpermitted hrepairs hs' t'

end SinglyLinkedList

structure SinglyLinkedListWithCount (T : Type) where
  list : SinglyLinkedList T
  mCount : Nat

namespace SinglyLinkedListWithCount

open SinglyLinkedList

variable {T : Type}

/-- A list as it is constructed. -/
def empty : SinglyLinkedListWithCount T := ⟨.empty, 0⟩

/-- `m_count` after an operation. -/
def count (mCount : Nat) : Operation T → Nat
  | .append _ | .prepend _ | .insertBefore _ _ | .insertAfter _ _ => mCount + 1
  | .takeFirst | .remove _ => mCount - 1
  | .clear => 0

/-- An operation on the list, of which `prepend` is none. -/
def step (s : SinglyLinkedListWithCount T × Option T) (op : Operation T) :
    Option (SinglyLinkedListWithCount T × Option T) :=
  match op with
  | .prepend _ => none
  | op => (SinglyLinkedList.step (s.1.list, s.2) op).map fun r => (⟨r.1, count s.1.mCount op⟩, r.2)

/-- The list has the values, and `size` is their number. -/
def Describes (s : SinglyLinkedListWithCount T × Option T) (t : List T × Option T) : Prop :=
  SinglyLinkedList.Describes (s.1.list, s.2) t ∧ s.1.mCount = t.1.length

theorem count_eq {values : List T} {op : Operation T} (h : Permitted values op) :
    count values.length op = (operate values op).1.length := by
  cases op <;> simp only [Permitted] at h <;>
    simp [count, operate, List.length_take, length_drop] <;> omega

theorem implements_of_each {ops : List (Operation T)} {s : SinglyLinkedList T} {chain : List Nat}
    {values : List T} {r : Option T} (h : Sound s chain values)
    (hops : Each operateStep Permitted values ops) (hmembers : ∀ value, .prepend value ∉ ops)
    (hrepairs : Each SinglyLinkedList.step Repairs (s, r) ops) :
    Implements step (fun t op t' => t' = operate t.1 op) Describes (⟨s, values.length⟩, r)
      (values, r) ops := by
  have hnow : ∀ {s chain values} {r : Option T}, Sound s chain values →
      Describes (⟨s, values.length⟩, r) (values, r) := fun h => ⟨⟨⟨_, h.toHolds⟩, rfl⟩, rfl⟩
  induction ops generalizing s chain values r with
  | nil => exact hnow h
  | cons op ops ih =>
    obtain ⟨s', chain', hs', hsound⟩ := h.step hops.1 hrepairs.1
    have hstep : step (⟨s, values.length⟩, r) op =
        some (⟨s', (operate values op).1.length⟩, (operate values op).2) := by
      rw [← count_eq hops.1]
      cases op with
      | prepend value => exact absurd mem_cons_self (hmembers value)
      | _ => simp [step, hs']
    exact ⟨hnow h, _, operate values op, hstep, rfl,
      ih hsound (hops.2 _ rfl) (fun value hmem => hmembers value (mem_cons_of_mem op hmem))
        (hrepairs.2 _ hs')⟩

end SinglyLinkedListWithCount

namespace SinglyLinkedList

variable {T : Type}

/-- Lists follow the operations, with the tail the last node and the count of those that keep one
the length, in exactly the runs that nowhere insert before the end or remove the first node. -/
theorem singlyLinkedList_implements_iff {ops : List (Operation T)}
    (hops : Each operateStep Permitted [] ops) :
    (Implements SinglyLinkedList.step (fun t op t' => t' = operate t.1 op) Describes (empty, none)
        ([], none) ops ↔
      Each SinglyLinkedList.step Repairs (empty, none) ops) ∧
      ((∀ value, .prepend value ∉ ops) → Each SinglyLinkedList.step Repairs (empty, none) ops →
        Implements SinglyLinkedListWithCount.step (fun t op t' => t' = operate t.1 op)
          SinglyLinkedListWithCount.Describes (.empty, none) ([], none) ops) :=
  ⟨implements_iff_repairs hops, fun hmembers hrepairs =>
    SinglyLinkedListWithCount.implements_of_each sound_empty hops hmembers hrepairs⟩

/-- Values are inserted at the front, in the middle and behind the last. -/
theorem singlyLinkedList_implements_iff_eight :
    Implements SinglyLinkedList.step (fun t op t' => t' = operate t.1 op) Describes
      ((empty : SinglyLinkedList Nat), none) ([], none)
      [.append 1, .prepend 0, .insertBefore 0 5, .insertBefore 2 6, .insertAfter 3 7, .remove 4,
        .takeFirst, .clear] :=
  (singlyLinkedList_implements_iff (by decide)).1.mpr (by decide)

/-- A value that is inserted before the end of a list of one leaves its tail behind. -/
theorem not_singlyLinkedList_implements :
    Each operateStep Permitted [] [.append 1, .insertBefore 1 2] ∧
      ¬ Implements SinglyLinkedList.step (fun t op t' => t' = operate t.1 op) Describes
        ((empty : SinglyLinkedList Nat), none) ([], none) [.append 1, .insertBefore 1 2] :=
  ⟨by decide, fun h => absurd ((implements_iff_repairs (by decide)).mp h) (by decide)⟩

end SinglyLinkedList

end Literate.AK
