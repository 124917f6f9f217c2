import Mathlib.Logic.Equiv.Basic
import Literate.Foundation.RedBlackPlaces
import Literate.AK.RedBlackShape

/-!
# AK: the successor, and taking a node out

What `remove` does before its fixups: it finds the successor, lets a node with two
children change places with it, and hangs the one child that is left under the parent.
-/

namespace Literate.AK

open Foundation List Option
open Equiv (swap swap_apply_right swap_apply_left swap_apply_of_ne_of_ne)

namespace BaseRedBlackTree

variable {P K : Type}

/-! ## Neighbours -/

/-- Along the edge on the other side, to the first node on the way to a side. -/
theorem outermost_spec (side : Side) {tree : BaseRedBlackTree P K} {t : Tree P}
    {ctx : List (Frame P)} {p : P} (h : tree.Holds (plug ctx t)) (hp : t.top = some p) {fuel : Nat}
    (hfuel : t.toList.length ≤ fuel) :
    tree.outermost side.other fuel p = (t.towards side).head? := by
  induction t using Tree.inductionOn side generalizing ctx p fuel with
  | nil => cases hp
  | nodeOn c near x far _ ih =>
    rw [Tree.top_nodeOn] at hp
    obtain rfl := some.inj hp
    have hlength := Tree.length_towards side (.nodeOn side c near x far)
    simp only [Tree.towards_nodeOn, length_append, length_cons, Tree.length_towards] at hlength
    obtain ⟨fuel, rfl⟩ := Nat.exists_eq_succ_of_ne_zero (show fuel ≠ 0 by omega)
    have hfar : (tree.nodes x).child side.other = far.top := h.at_node.2.2.2
    rw [outermost, hfar, Tree.towards_nodeOn]
    cases hfartop : far.top with
    | none =>
      obtain rfl := Tree.top_eq_none.mp hfartop
      rw [Tree.towards_nil]
      rfl
    | some y =>
      have hplug : tree.Holds (plug (⟨side.other, c, x, near⟩ :: ctx) far) := by
        rw [← plug_sibling]
        exact h
      rw [List.head?_append_of_ne_nil _ (Tree.towards_ne_nil side hfartop)]
      exact ih hplug hfartop (by omega)

section

variable [DecidableEq P] (side : Side) {tree : BaseRedBlackTree P K} {ctx : List (Frame P)}

theorem climbFrom_spec {t : Tree P} {p : P} (h : tree.Holds (plug ctx t))
    (hp : t.top = some p) {fuel : Nat} (hfuel : ctx.length < fuel) :
    tree.climbFrom side fuel p (parentOf ctx) = some (beyond side ctx).head? := by
  induction ctx generalizing t p fuel with
  | nil =>
    obtain ⟨fuel, rfl⟩ := Nat.exists_eq_succ_of_ne_zero (show fuel ≠ 0 by omega)
    cases side <;> rfl
  | cons frame ctx ih =>
    obtain ⟨fuel, rfl⟩ := Nat.exists_eq_succ_of_ne_zero (show fuel ≠ 0 by omega)
    have hside := h.side_of_frame hp side
    have hparent := h.at_frame.2.1
    obtain ⟨side', c, x, s⟩ := frame
    rw [parentOf, parentFrom, climbFrom]
    by_cases heq : side' = side
    · subst heq
      have hrest := @ih (Frame.plug ⟨side', c, x, s⟩ t) x h (Tree.top_nodeOn ..) fuel
        (by simpa using hfuel)
      have hparent' : (tree.nodes x).parent = parentOf ctx := hparent
      rw [if_pos (hside.mpr rfl), hparent', hrest, beyond_cons_near]
    · have hchild : ¬ (tree.nodes x).child side = some p := fun hchild => heq (hside.mp hchild)
      obtain rfl := Side.eq_other_of_ne heq
      rw [if_neg hchild, beyond_cons_far]
      rfl

theorem neighbour_spec {c : Color} {near far : Tree P} {p : P}
    (h : tree.Holds (plug ctx (.nodeOn side c near p far))) {fuel : Nat}
    (hfuel : (plug ctx (.nodeOn side c near p far)).toList.length < fuel) :
    tree.neighbour side fuel p = some (near.towards side ++ beyond side ctx).head? := by
  obtain ⟨-, hparent, hnear, -⟩ := h.at_node
  have hlength := length_le_length_plug ctx (.nodeOn side c near p far)
  have hnode := Tree.length_towards side (.nodeOn side c near p far)
  simp only [Tree.towards_nodeOn, length_append, length_cons, Tree.length_towards] at hnode
  rw [neighbour, hnear, hparent]
  cases hneartop : near.top with
  | none =>
    obtain rfl := Tree.top_eq_none.mp hneartop
    rw [Tree.towards_nil, nil_append]
    exact climbFrom_spec side h (Tree.top_nodeOn ..) (by omega)
  | some x =>
    have hne := Tree.towards_ne_nil side hneartop
    have hedge := @outermost_spec _ _ side tree near (⟨side, c, p, far⟩ :: ctx) x h hneartop
      fuel (by omega)
    obtain ⟨y, hy⟩ := ne_none_iff_exists'.mp (mt List.head?_eq_none_iff.mp hne)
    dsimp only
    rw [hedge, hy, List.head?_append_of_ne_nil _ hne, hy]
    rfl

end

/-- `successor` is the neighbour on the right. -/
theorem leftmost_eq (tree : BaseRedBlackTree P K) (fuel : Nat) (p : P) :
    tree.leftmost fuel p = tree.outermost .left fuel p := by
  induction fuel generalizing p with
  | zero => rfl
  | succ fuel ih =>
    rw [leftmost, outermost, Node.child]
    cases (tree.nodes p).leftChild with
    | none => rfl
    | some child => exact ih child

section

variable [DecidableEq P] (tree : BaseRedBlackTree P K) (fuel : Nat) (p : P)

theorem climb_eq (temp : Option P) :
    tree.climb fuel p temp = tree.climbFrom .right fuel p temp := by
  induction fuel generalizing p temp with
  | zero => rfl
  | succ fuel ih =>
    cases temp with
    | none => rfl
    | some temp => rw [climb, climbFrom, Node.child, ih]

theorem successor_eq : tree.successor fuel p = tree.neighbour .right fuel p := by
  rw [successor, neighbour, Node.child]
  cases (tree.nodes p).rightChild with
  | none => exact climb_eq tree fuel p _
  | some child => exact congrArg (Option.map some) (leftmost_eq tree fuel child)

end

/-! ## Two nodes change places -/

variable [DecidableEq P]

section

variable (tree : BaseRedBlackTree P K) {p s : P}

/-- The fields of another node, with the key of its own. -/
def withKey (node : Node P K) (key : K) : Node P K := { node with key }

/-- The last assignments of `relink` when the two are no neighbours. -/
theorem swapFields_spec (hps : p ≠ s) :
    let tree' := (((tree.swapParents p s).swapChildren .left p s).swapChildren .right p s).swapColors p s
    tree'.nodes p = withKey (tree.nodes s) (tree.nodes p).key ∧
      tree'.nodes s = withKey (tree.nodes p) (tree.nodes s).key ∧
      (∀ x, x ≠ p → x ≠ s → tree'.nodes x = tree.nodes x) ∧ tree'.root = tree.root ∧
      tree'.size = tree.size ∧ tree'.minimum = tree.minimum := by
  simp only [swapParents, swapChildren, swapColors, setParent, setChild, setColor, setNode]
  refine ⟨?_, ?_, ?_, trivial, trivial, trivial⟩
  · simp [hps, hps.symm, Node.child, Node.setChild, Node.setParent, Node.setColor, withKey]
  · simp [hps, hps.symm, Node.child, Node.setChild, Node.setParent, Node.setColor, withKey]
  · intro x hxp hxs
    simp [Function.update_apply, hxp, hxs]

end

end BaseRedBlackTree

namespace Node

variable {P K : Type}

/-- The links of a node lead to other places. -/
def rename (f : P → P) (node : Node P K) : Node P K :=
  { node with
    leftChild := node.leftChild.map f
    rightChild := node.rightChild.map f
    parent := node.parent.map f }

theorem child_rename (f : P → P) (node : Node P K) (side : Side) :
    (node.rename f).child side = (node.child side).map f := by
  cases side <;> rfl

theorem eq_rename_iff {f : P → P} {node node' : Node P K} :
    node' = node.rename f ↔ node'.color = node.color ∧ node'.parent = node.parent.map f ∧
      (∀ side, node'.child side = (node.child side).map f) ∧ node'.key = node.key := by
  constructor
  · rintro rfl
    exact ⟨rfl, rfl, child_rename f node, rfl⟩
  · obtain ⟨left, right, parent, color, key⟩ := node
    obtain ⟨left', right', parent', color', key'⟩ := node'
    rintro ⟨hcolor, hparent, hchild, hkey⟩
    have hleft := hchild .left
    have hright := hchild .right
    dsimp only [child] at hcolor hparent hleft hright hkey
    rw [rename, hcolor, hparent, hleft, hright, hkey]

theorem eq_of_fields {node node' : Node P K} (hcolor : node'.color = node.color)
    (hparent : node'.parent = node.parent) (hchild : ∀ side, node'.child side = node.child side)
    (hkey : node'.key = node.key) : node' = node := by
  obtain ⟨left, right, parent, color, key⟩ := node
  obtain ⟨left', right', parent', color', key'⟩ := node'
  have hleft := hchild .left
  have hright := hchild .right
  dsimp only [child] at hcolor hparent hleft hright hkey
  rw [hcolor, hparent, hleft, hright, hkey]

end Node

variable {P K : Type} {nodes nodes' : P → Node P K}

/-- A memory in which the nodes have other addresses. -/
theorem Owns.rename {f : P → P} {parent : Option P} {t : Tree P} (h : Owns nodes parent t)
    (hnodes : ∀ x ∈ t.toList, nodes' (f x) =
      BaseRedBlackTree.withKey ((nodes x).rename f) (nodes (f x)).key) :
    Owns nodes' (parent.map f) (t.map f) := by
  induction t generalizing parent with
  | nil => trivial
  | node c l x r ihl ihr =>
    obtain ⟨hcolor, hparent, hleft, hright, hl, hr⟩ := h
    have hx := hnodes x (by simp [Tree.toList])
    simp only [Foundation.Tree.map, Owns, hx, Tree.top_map, ← hparent, ← hleft, ← hright]
    exact ⟨hcolor, rfl, rfl, rfl, ihl hl fun y hy => hnodes y (by simp [Tree.toList, hy]),
      ihr hr fun y hy => hnodes y (by simp [Tree.toList, hy])⟩

namespace BaseRedBlackTree

/-! ## Links in both directions -/

theorem Holds.parent_of_child {tree : BaseRedBlackTree P K} {t : Tree P} (h : tree.Holds t)
    {x y : P} (hy : y ∈ t.toList) {side : Side} (hchild : (tree.nodes y).child side = some x) :
    x ∈ t.toList ∧ (tree.nodes x).parent = some y ∧ (tree.nodes y).child side.other ≠ some x := by
  obtain ⟨ctx, c, l, r, rfl⟩ := exists_plug hy
  obtain ⟨near, far, hnode⟩ := Tree.exists_nodeOn side c l y r
  rw [hnode] at h ⊢
  obtain ⟨-, -, hnear, hfar⟩ := h.at_node
  have htop : near.top = some x := hnear.symm.trans hchild
  refine ⟨?_, @Holds.parent_top _ _ tree (⟨side, c, y, far⟩ :: ctx) near x h htop, fun hother => ?_⟩
  · simp only [toList_plug, mem_append, Tree.mem_nodeOn]
    exact .inr (.inl (.inr (.inl (Tree.top_mem htop))))
  · have hdisjoint := (Tree.nodup_nodeOn.mp (nodup_plug.mp h.nodup).1).2.2.2.2
    exact hdisjoint (Tree.top_mem htop) (Tree.top_mem (hfar.symm.trans hother))

theorem Holds.child_of_parent {tree : BaseRedBlackTree P K} {t : Tree P} (h : tree.Holds t)
    {x y : P} (hx : x ∈ t.toList) (hparent : (tree.nodes x).parent = some y) :
    y ∈ t.toList ∧ ∃ side, (tree.nodes y).child side = some x := by
  obtain ⟨ctx, c, l, r, rfl⟩ := exists_plug hx
  have hparent' := @Holds.at_node _ _ tree ctx .left c l r x h
  cases ctx with
  | nil => cases hparent.symm.trans hparent'.2.1
  | cons frame ctx =>
    obtain rfl : y = frame.value := some.inj (hparent.symm.trans hparent'.2.1)
    refine ⟨?_, frame.side, h.at_frame.2.2.1⟩
    rw [toList_plug, mem_append, mem_append, or_left_comm, ← mem_values]
    exact .inr (by simp [values])

variable [DecidableEq P]

/-! ## The fields after an assignment -/

section

variable (tree : BaseRedBlackTree P K) (x : P)

theorem setParentOf_fields (child parent : Option P) :
    ((tree.setParentOf child parent).nodes x).color = (tree.nodes x).color ∧
      ((tree.setParentOf child parent).nodes x).parent =
        (if child = some x then parent else (tree.nodes x).parent) ∧
      (∀ side, ((tree.setParentOf child parent).nodes x).child side = (tree.nodes x).child side) ∧
      ((tree.setParentOf child parent).nodes x).key = (tree.nodes x).key := by
  cases child with
  | none => exact ⟨rfl, rfl, fun _ => rfl, rfl⟩
  | some y =>
    rw [setParentOf, BaseRedBlackTree.setParent]
    by_cases hxy : x = y
    · subst hxy
      rw [setNode_nodes_self, if_pos rfl]
      exact ⟨rfl, rfl, Node.child_setParent _ _, rfl⟩
    · rw [setNode_nodes_of_ne _ _ _ hxy, if_neg fun h => hxy (some.inj h).symm]
      exact ⟨rfl, rfl, fun _ => rfl, rfl⟩

theorem setParentOf_counters (child parent : Option P) :
    (tree.setParentOf child parent).root = tree.root ∧
      (tree.setParentOf child parent).size = tree.size ∧
      (tree.setParentOf child parent).minimum = tree.minimum := by
  cases child <;> exact ⟨rfl, rfl, rfl⟩

theorem replaceChild_root (parent : Option P) (old : P) (new : Option P) :
    (tree.replaceChild parent old new).root = if parent = none then new else tree.root := by
  cases parent with
  | none => rfl
  | some parent =>
    rw [replaceChild, if_neg (some_ne_none parent)]
    split_ifs <;> rfl

theorem replaceChild_counters (parent : Option P) (old : P) (new : Option P) :
    (tree.replaceChild parent old new).size = tree.size ∧
      (tree.replaceChild parent old new).minimum = tree.minimum := by
  cases parent with
  | none => exact ⟨rfl, rfl⟩
  | some parent =>
    rw [replaceChild]
    split_ifs <;> exact ⟨rfl, rfl⟩

theorem replaceChild_fields {parent : Option P} {old : P} (new : Option P)
    (hparent : ∀ y, parent = some y → ∃ side, (tree.nodes y).child side = some old ∧
      (tree.nodes y).child side.other ≠ some old) :
    ((tree.replaceChild parent old new).nodes x).color = (tree.nodes x).color ∧
      ((tree.replaceChild parent old new).nodes x).parent = (tree.nodes x).parent ∧
      (∀ side, ((tree.replaceChild parent old new).nodes x).child side =
        if parent = some x ∧ (tree.nodes x).child side = some old then new
        else (tree.nodes x).child side) ∧
      ((tree.replaceChild parent old new).nodes x).key = (tree.nodes x).key := by
  cases parent with
  | none =>
    refine ⟨rfl, rfl, fun side => ?_, rfl⟩
    rw [if_neg fun h => some_ne_none x h.1.symm]
    rfl
  | some y =>
    obtain ⟨side, hside, hother⟩ := hparent y rfl
    have hset : tree.replaceChild (some y) old new = tree.setChild side y new := by
      rw [replaceChild]
      cases side with
      | left => exact if_pos hside
      | right => exact if_neg hother
    rw [hset, BaseRedBlackTree.setChild]
    by_cases hxy : x = y
    · subst hxy
      rw [setNode_nodes_self]
      refine ⟨Node.color_setChild .., Node.parent_setChild .., fun side' => ?_, Node.key_setChild ..⟩
      by_cases hside' : side' = side
      · subst hside'
        rw [if_pos ⟨rfl, hside⟩, Node.child_setChild_self]
      · obtain rfl := Side.eq_other_of_ne hside'
        rw [if_neg fun h => hother h.2, Node.child_setChild_other]
    · have hne : some y ≠ some x := fun h => hxy (some.inj h).symm
      rw [setNode_nodes_of_ne _ _ _ hxy]
      exact ⟨rfl, rfl, fun _ => (if_neg fun h => hne h.1).symm, rfl⟩

end

/-! ## The exchange -/

/-- What `relink` assigns to the two, at the end. -/
def relinkInside (neighbourSwap : Bool) (tree : BaseRedBlackTree P K) (node successorNode : P) :
    BaseRedBlackTree P K :=
  let tree :=
    if neighbourSwap then
      let tree := tree.setParent successorNode (tree.nodes node).parent
      tree.setParent node (some successorNode)
    else tree.swapParents node successorNode
  let tree := tree.swapChildren .left node successorNode
  let tree :=
    if neighbourSwap then
      let tree := tree.setChild .right node (tree.nodes successorNode).rightChild
      tree.setChild .right successorNode (some node)
    else tree.swapChildren .right node successorNode
  tree.swapColors node successorNode

theorem relinkInside_neighbours (tree : BaseRedBlackTree P K) {p s : P} (hps : p ≠ s) :
    (relinkInside true tree p s).nodes p =
        withKey { tree.nodes s with parent := some s } (tree.nodes p).key ∧
      (relinkInside true tree p s).nodes s =
        withKey { tree.nodes p with rightChild := some p } (tree.nodes s).key ∧
      (∀ x, x ≠ p → x ≠ s → (relinkInside true tree p s).nodes x = tree.nodes x) ∧
      (relinkInside true tree p s).root = tree.root ∧
      (relinkInside true tree p s).size = tree.size ∧
      (relinkInside true tree p s).minimum = tree.minimum := by
  simp only [relinkInside, if_true, swapChildren, swapColors, setParent, setChild, setColor, setNode]
  refine ⟨?_, ?_, ?_, trivial, trivial, trivial⟩
  · simp [hps, hps.symm, Node.child, Node.setChild, Node.setParent, Node.setColor, withKey]
  · simp [hps, hps.symm, Node.child, Node.setChild, Node.setParent, Node.setColor, withKey]
  · intro x hxp hxs
    simp [Function.update_apply, hxp, hxs]

/-- What `relink` assigns to the children of a node, when it exchanges it with its successor. -/
def relinkBelow (tree : BaseRedBlackTree P K) (node successorNode : P) : BaseRedBlackTree P K :=
  let neighbourSwap : Bool := (tree.nodes successorNode).parent = some node
  let tree := tree.setParentOf (tree.nodes node).leftChild (some successorNode)
  if neighbourSwap then tree
  else tree.setParentOf (tree.nodes node).rightChild (some successorNode)

/-- What `relink` assigns to all nodes around the two. -/
def relinkAround (tree : BaseRedBlackTree P K) (node successorNode : P) : BaseRedBlackTree P K :=
  let neighbourSwap : Bool := (tree.nodes successorNode).parent = some node
  let tree := tree.relinkBelow node successorNode
  let tree := tree.replaceChild (tree.nodes node).parent node (some successorNode)
  let tree := tree.setParentOf (tree.nodes successorNode).rightChild (some node)
  if neighbourSwap then tree
  else tree.replaceChild (tree.nodes successorNode).parent successorNode (some node)

theorem relinkBelow_fields (tree : BaseRedBlackTree P K) (p s x : P) :
    ((tree.relinkBelow p s).nodes x).color = (tree.nodes x).color ∧
      ((tree.relinkBelow p s).nodes x).parent =
        (if (tree.nodes p).leftChild = some x ∨
          ((tree.nodes s).parent ≠ some p ∧ (tree.nodes p).rightChild = some x) then some s
        else (tree.nodes x).parent) ∧
      (∀ side, ((tree.relinkBelow p s).nodes x).child side = (tree.nodes x).child side) ∧
      ((tree.relinkBelow p s).nodes x).key = (tree.nodes x).key := by
  obtain ⟨hcolor, hparent, hchild, hkey⟩ :=
    tree.setParentOf_fields x (tree.nodes p).leftChild (some s)
  have hright : ((tree.setParentOf (tree.nodes p).leftChild (some s)).nodes p).rightChild =
      (tree.nodes p).rightChild :=
    (tree.setParentOf_fields p (tree.nodes p).leftChild (some s)).2.2.1 .right
  by_cases hneighbour : (tree.nodes s).parent = some p
  · have hbelow : tree.relinkBelow p s = tree.setParentOf (tree.nodes p).leftChild (some s) := by
      simp [relinkBelow, hneighbour]
    rw [hbelow]
    refine ⟨hcolor, hparent.trans (if_congr ?_ rfl rfl), hchild, hkey⟩
    exact ⟨.inl, fun h => h.resolve_right fun hboth => hboth.1 hneighbour⟩
  · have hbelow : tree.relinkBelow p s =
        (tree.setParentOf (tree.nodes p).leftChild (some s)).setParentOf (tree.nodes p).rightChild
          (some s) := by
      simp [relinkBelow, hneighbour, hright]
    obtain ⟨hcolor', hparent', hchild', hkey'⟩ :=
      (tree.setParentOf (tree.nodes p).leftChild (some s)).setParentOf_fields x
        (tree.nodes p).rightChild (some s)
    rw [hbelow]
    refine ⟨hcolor'.trans hcolor, hparent'.trans ?_, fun side => (hchild' side).trans (hchild side),
      hkey'.trans hkey⟩
    rw [hparent]
    by_cases hl : (tree.nodes p).leftChild = some x
    · simp [hl]
    · by_cases hr : (tree.nodes p).rightChild = some x
      · simp [hl, hr, hneighbour]
      · simp [hl, hr]

theorem relinkBelow_counters (tree : BaseRedBlackTree P K) (p s : P) :
    (tree.relinkBelow p s).root = tree.root ∧ (tree.relinkBelow p s).size = tree.size ∧
      (tree.relinkBelow p s).minimum = tree.minimum := by
  obtain ⟨hroot, hsize, hminimum⟩ := tree.setParentOf_counters (tree.nodes p).leftChild (some s)
  rw [relinkBelow]
  split_ifs
  · exact ⟨hroot, hsize, hminimum⟩
  · obtain ⟨hroot', hsize', hminimum'⟩ :=
      (tree.setParentOf (tree.nodes p).leftChild (some s)).setParentOf_counters
        ((tree.setParentOf (tree.nodes p).leftChild (some s)).nodes p).rightChild (some s)
    exact ⟨hroot'.trans hroot, hsize'.trans hsize, hminimum'.trans hminimum⟩

/-- Two nodes of a tree of which the second one has no left child, and is not above the first
one, nor next to it. -/
structure Exchangeable (tree : BaseRedBlackTree P K) (t : Tree P) (p s : P) : Prop where
  holds : tree.Holds t
  mem : p ∈ t.toList
  mem' : s ∈ t.toList
  ne : p ≠ s
  leftChild : (tree.nodes s).leftChild = none
  leftChild_ne : (tree.nodes p).leftChild ≠ some s
  parent_ne : (tree.nodes p).parent ≠ some s
  parents : (tree.nodes p).parent ≠ (tree.nodes s).parent
  parent : (tree.nodes s).parent ≠ none

omit [DecidableEq P] in
theorem Holds.parent_ne_self {tree : BaseRedBlackTree P K} {t : Tree P} (h : tree.Holds t) {x : P}
    (hx : x ∈ t.toList) : (tree.nodes x).parent ≠ some x := by
  obtain ⟨ctx, c, l, r, rfl⟩ := exists_plug hx
  have hparent := (@Holds.at_node _ _ tree ctx .left c l r x h).2.1
  obtain ⟨-, -, hdisjoint⟩ := nodup_plug.mp h.nodup
  cases ctx with
  | nil =>
    rw [hparent]
    exact nofun
  | cons frame ctx =>
    intro hself
    obtain rfl : x = frame.value := some.inj (hself.symm.trans hparent)
    exact hdisjoint (by simp [Tree.toList]) mem_cons_self

omit [DecidableEq P] in
theorem Holds.root_iff {tree : BaseRedBlackTree P K} {t : Tree P} (h : tree.Holds t) {x : P}
    (hx : x ∈ t.toList) : tree.root = some x ↔ (tree.nodes x).parent = none := by
  constructor
  · intro hroot
    exact @Holds.parent_top _ _ tree [] t x h (h.root.symm.trans hroot)
  · intro hparent
    obtain ⟨ctx, c, l, r, rfl⟩ := exists_plug hx
    have hplace := (@Holds.at_node _ _ tree ctx .left c l r x h).2.1
    cases ctx with
    | nil => exact h.root
    | cons frame ctx => cases hplace.symm.trans hparent

/-- The nodes around the two, and the root, lead to the other one each. -/
theorem relinkAround_spec {tree : BaseRedBlackTree P K} {t : Tree P} {p s : P}
    (h : tree.Exchangeable t p s) :
    (∀ x, ((relinkAround tree p s).nodes x).color = (tree.nodes x).color ∧
      ((relinkAround tree p s).nodes x).parent =
        (if (tree.nodes s).rightChild = some x then some p
        else if (tree.nodes p).leftChild = some x ∨
          ((tree.nodes s).parent ≠ some p ∧ (tree.nodes p).rightChild = some x) then some s
        else (tree.nodes x).parent) ∧
      (∀ side, ((relinkAround tree p s).nodes x).child side =
        if (tree.nodes s).parent ≠ some p ∧ (tree.nodes s).parent = some x ∧
          (tree.nodes x).child side = some s then some p
        else if (tree.nodes p).parent = some x ∧ (tree.nodes x).child side = some p then some s
        else (tree.nodes x).child side) ∧
      ((relinkAround tree p s).nodes x).key = (tree.nodes x).key) ∧
    (relinkAround tree p s).root = (if (tree.nodes p).parent = none then some s else tree.root) ∧
    (relinkAround tree p s).size = tree.size ∧ (relinkAround tree p s).minimum = tree.minimum := by
  obtain ⟨hholds, hp, hs, hps, hleft, hleftChild, hparentS, hparents, hparent⟩ := h
  -- what is known about the children of a parent
  have hchildren : ∀ x ∈ t.toList, ∀ y, (tree.nodes x).parent = some y →
      ∃ side, (tree.nodes y).child side = some x ∧ (tree.nodes y).child side.other ≠ some x := by
    intro x hx y hy
    obtain ⟨hmem, side, hside⟩ := hholds.child_of_parent hx hy
    exact ⟨side, hside, (hholds.parent_of_child hmem hside).2.2⟩
  have hparentOf : ∀ x ∈ t.toList, ∀ side y, (tree.nodes x).child side = some y →
      (tree.nodes y).parent = some x :=
    fun x hx side y hy => (hholds.parent_of_child hx hy).2.1
  have hnotParent : ∀ x ∈ t.toList, ∀ side y, (tree.nodes y).parent ≠ some x →
      (tree.nodes x).child side ≠ some y :=
    fun x hx side y hne hy => hne (hparentOf x hx side y hy)
  -- the children have been told
  obtain ⟨tree₂, htree₂⟩ : ∃ tree₂, tree₂ = tree.relinkBelow p s := ⟨_, rfl⟩
  have hfields₂ := fun x => htree₂ ▸ tree.relinkBelow_fields p s x
  have hparent₂ : (tree₂.nodes p).parent = (tree.nodes p).parent := by
    rw [(hfields₂ p).2.1, if_neg]
    rintro (hl | ⟨-, hr⟩)
    · exact hnotParent p hp .left p (hholds.parent_ne_self hp) hl
    · exact hnotParent p hp .right p (hholds.parent_ne_self hp) hr
  -- the parent of the node has been told
  obtain ⟨tree₃, htree₃⟩ : ∃ tree₃, tree₃ = tree₂.replaceChild (tree₂.nodes p).parent p (some s) :=
    ⟨_, rfl⟩
  have hfields₃ := fun x => htree₃ ▸ tree₂.replaceChild_fields x (some s) fun y hy => by
    obtain ⟨side, hside, hother⟩ := hchildren p hp y (hparent₂ ▸ hy)
    exact ⟨side, ((hfields₂ y).2.2.1 side).trans hside, fun hsame =>
      hother (((hfields₂ y).2.2.1 side.other).symm.trans hsame)⟩
  have hright₃ : (tree₃.nodes s).rightChild = (tree.nodes s).rightChild := by
    have hchild := (hfields₃ s).2.2.1 .right
    rw [if_neg fun hboth => hparentS (hparent₂ ▸ hboth.1)] at hchild
    exact hchild.trans ((hfields₂ s).2.2.1 .right)
  -- the child of the successor has been told
  obtain ⟨tree₄, htree₄⟩ : ∃ tree₄, tree₄ = tree₃.setParentOf (tree₃.nodes s).rightChild (some p) :=
    ⟨_, rfl⟩
  have hfields₄ := fun x => htree₄ ▸ tree₃.setParentOf_fields x (tree₃.nodes s).rightChild (some p)
  have hcolor₄ : ∀ x, (tree₄.nodes x).color = (tree.nodes x).color := fun x =>
    (hfields₄ x).1.trans ((hfields₃ x).1.trans (hfields₂ x).1)
  have hparent₄ : ∀ x, (tree₄.nodes x).parent =
      if (tree.nodes s).rightChild = some x then some p
      else if (tree.nodes p).leftChild = some x ∨
        ((tree.nodes s).parent ≠ some p ∧ (tree.nodes p).rightChild = some x) then some s
      else (tree.nodes x).parent := by
    intro x
    rw [(hfields₄ x).2.1, hright₃, (hfields₃ x).2.1, (hfields₂ x).2.1]
  have hchild₄ : ∀ x side, (tree₄.nodes x).child side =
      if (tree.nodes p).parent = some x ∧ (tree.nodes x).child side = some p then some s
      else (tree.nodes x).child side := by
    intro x side
    rw [(hfields₄ x).2.2.1, (hfields₃ x).2.2.1, hparent₂, (hfields₂ x).2.2.1]
  have hkey₄ : ∀ x, (tree₄.nodes x).key = (tree.nodes x).key := fun x =>
    (hfields₄ x).2.2.2.trans ((hfields₃ x).2.2.2.trans (hfields₂ x).2.2.2)
  have hcounters₄ : tree₄.root = (if (tree.nodes p).parent = none then some s else tree.root) ∧
      tree₄.size = tree.size ∧ tree₄.minimum = tree.minimum := by
    obtain ⟨hroot₂, hsize₂, hminimum₂⟩ := tree.relinkBelow_counters p s
    rw [← htree₂] at hroot₂ hsize₂ hminimum₂
    obtain ⟨hsize₃, hminimum₃⟩ := tree₂.replaceChild_counters (tree₂.nodes p).parent p (some s)
    rw [← htree₃] at hsize₃ hminimum₃
    have hroot₃ : tree₃.root = if (tree.nodes p).parent = none then some s else tree.root := by
      rw [htree₃, replaceChild_root, hparent₂, hroot₂]
    obtain ⟨hroot₄, hsize₄, hminimum₄⟩ := tree₃.setParentOf_counters (tree₃.nodes s).rightChild (some p)
    rw [← htree₄] at hroot₄ hsize₄ hminimum₄
    exact ⟨hroot₄.trans hroot₃, hsize₄.trans (hsize₃.trans hsize₂),
      hminimum₄.trans (hminimum₃.trans hminimum₂)⟩
  by_cases hneighbour : (tree.nodes s).parent = some p
  · have hrelink : relinkAround tree p s = tree₄ := by
      simp [relinkAround, hneighbour, htree₄, htree₃, htree₂]
    rw [hrelink]
    refine ⟨fun x => ⟨hcolor₄ x, hparent₄ x, fun side => ?_, hkey₄ x⟩, ?_⟩
    · have hnot : ¬ ((tree.nodes s).parent ≠ some p ∧ (tree.nodes s).parent = some x ∧
          (tree.nodes x).child side = some s) := fun hboth => hboth.1 hneighbour
      rw [hchild₄, if_neg hnot]
    · exact hcounters₄
  · have hparent₄' : (tree₄.nodes s).parent = (tree.nodes s).parent := by
      have hself : (tree.nodes s).rightChild ≠ some s :=
        hnotParent s hs .right s (hholds.parent_ne_self hs)
      rw [hparent₄, if_neg hself, if_neg]
      rintro (hl | ⟨-, hr⟩)
      · exact hleftChild hl
      · exact hneighbour (hparentOf p hp .right s hr)
    have hrelink : relinkAround tree p s =
        tree₄.replaceChild (tree₄.nodes s).parent s (some p) := by
      simp only [relinkAround, hneighbour, decide_false, Bool.false_eq_true, if_false, htree₄, htree₃,
        htree₂]
    have hsides : ∀ y, (tree₄.nodes s).parent = some y → ∃ side,
        (tree₄.nodes y).child side = some s ∧ (tree₄.nodes y).child side.other ≠ some s := by
      intro y hy
      rw [hparent₄'] at hy
      obtain ⟨side, hside, hother⟩ := hchildren s hs y hy
      have hne : ¬ ((tree.nodes p).parent = some y) := fun hy' => hparents (hy'.trans hy.symm)
      refine ⟨side, ?_, ?_⟩
      · rw [hchild₄, if_neg fun hboth => hne hboth.1]
        exact hside
      · rw [hchild₄, if_neg fun hboth => hne hboth.1]
        exact hother
    have hfields₅ := fun x => tree₄.replaceChild_fields x (some p) hsides
    rw [hrelink]
    refine ⟨fun x => ⟨(hfields₅ x).1.trans (hcolor₄ x), (hfields₅ x).2.1.trans (hparent₄ x),
      fun side => ?_, (hfields₅ x).2.2.2.trans (hkey₄ x)⟩, ?_⟩
    · rw [(hfields₅ x).2.2.1, hparent₄', hchild₄]
      by_cases hx : (tree.nodes s).parent = some x
      · have hne : ¬ ((tree.nodes p).parent = some x) := fun hx' => hparents (hx'.trans hx.symm)
        have hne' : ¬ some x = some p := fun hxp => hneighbour (hx.trans hxp)
        simp [hx, hne, hne']
      · simp [hx]
    · rw [replaceChild_root, hparent₄', if_neg hparent]
      exact ⟨hcounters₄.1, (tree₄.replaceChild_counters _ s (some p)).1.trans hcounters₄.2.1,
        (tree₄.replaceChild_counters _ s (some p)).2.trans hcounters₄.2.2⟩

variable {tree : BaseRedBlackTree P K} {t : Tree P} {p s : P}

omit [DecidableEq P] in
theorem Exchangeable.child_ne (h : tree.Exchangeable t p s) {x y : P} (hx : x ∈ t.toList)
    (hne : (tree.nodes y).parent ≠ some x) (side : Side) : (tree.nodes x).child side ≠ some y :=
  fun hy => hne (h.holds.parent_of_child hx hy).2.1

omit [DecidableEq P] in
theorem Exchangeable.right_parent (h : tree.Exchangeable t p s) {x : P}
    (hx : (tree.nodes p).rightChild = some x) : (tree.nodes x).parent = some p := by
  have hchild : (tree.nodes p).child .right = some x := hx
  exact (h.holds.parent_of_child h.mem hchild).2.1

section

variable (h : tree.Exchangeable t p s)

include h

theorem relinkAround_self : (relinkAround tree p s).nodes p = tree.nodes p ∧
      (relinkAround tree p s).nodes s = tree.nodes s := by
  obtain ⟨hfields, -⟩ := relinkAround_spec h
  have hselfP := h.holds.parent_ne_self h.mem
  have hselfS := h.holds.parent_ne_self h.mem'
  have hrightS : (tree.nodes s).rightChild ≠ some p := h.child_ne h.mem' h.parent_ne .right
  have hrightS' : (tree.nodes s).rightChild ≠ some s := h.child_ne h.mem' hselfS .right
  have hleftP : (tree.nodes p).leftChild ≠ some p := h.child_ne h.mem hselfP .left
  have hrightP : (tree.nodes p).rightChild ≠ some p := h.child_ne h.mem hselfP .right
  constructor
  · obtain ⟨hcolor, hparent, hchild, hkey⟩ := hfields p
    refine Node.eq_of_fields hcolor ?_ (fun side => ?_) hkey
    · rw [hparent, if_neg hrightS, if_neg]
      rintro (hl | ⟨-, hr⟩)
      · exact hleftP hl
      · exact hrightP hr
    · rw [hchild, if_neg fun hboth => hboth.1 hboth.2.1, if_neg fun hboth => hselfP hboth.1]
  · obtain ⟨hcolor, hparent, hchild, hkey⟩ := hfields s
    refine Node.eq_of_fields hcolor ?_ (fun side => ?_) hkey
    · rw [hparent, if_neg hrightS', if_neg]
      rintro (hl | ⟨hne, hr⟩)
      · exact h.leftChild_ne hl
      · exact hne (h.right_parent hr)
    · rw [hchild, if_neg fun hboth => hselfS hboth.2.1, if_neg fun hboth => h.parent_ne hboth.1]

/-- The links of the others lead to the other one of the two each. -/
theorem relinkAround_rename {x : P} (hx : x ∈ t.toList) (hxp : x ≠ p)
    (hxs : x ≠ s) : (relinkAround tree p s).nodes x = (tree.nodes x).rename (swap p s) := by
  obtain ⟨hcolor, hparent, hchild, hkey⟩ := (relinkAround_spec h).1 x
  refine Node.eq_rename_iff.mpr ⟨hcolor, ?_, fun side => ?_, hkey⟩
  · rw [hparent]
    by_cases hrs : (tree.nodes s).rightChild = some x
    · have hparentX := (h.holds.parent_of_child h.mem' (show (tree.nodes s).child .right = _ from hrs)).2.1
      rw [if_pos hrs, hparentX, map_some, swap_apply_right]
    rw [if_neg hrs]
    by_cases hchildP : (tree.nodes p).leftChild = some x ∨ (tree.nodes p).rightChild = some x
    · have hparentX : (tree.nodes x).parent = some p := by
        rcases hchildP with hl | hr
        · exact (h.holds.parent_of_child h.mem (show (tree.nodes p).child .left = _ from hl)).2.1
        · exact h.right_parent hr
      rw [if_pos, hparentX, map_some, swap_apply_left]
      refine hchildP.imp_right fun hr => ⟨fun hneighbour => ?_, hr⟩
      -- a neighbour is the right child, since it is not the left one
      obtain ⟨side, hside⟩ := (h.holds.child_of_parent h.mem' hneighbour).2
      cases side with
      | left => exact h.leftChild_ne hside
      | right => exact hxs (some.inj (hr.symm.trans hside))
    · rw [if_neg fun hor => hchildP (hor.imp_right And.right)]
      cases hparentX : (tree.nodes x).parent with
      | none => rfl
      | some y =>
        obtain ⟨side, hside⟩ := (h.holds.child_of_parent hx hparentX).2
        have hyp : y ≠ p := by
          rintro rfl
          cases side with
          | left => exact hchildP (.inl hside)
          | right => exact hchildP (.inr hside)
        have hys : y ≠ s := by
          rintro rfl
          cases side with
          | left => cases h.leftChild.symm.trans hside
          | right => exact hrs hside
        rw [map_some, swap_apply_of_ne_of_ne hyp hys]
  · rw [hchild]
    cases hchildX : (tree.nodes x).child side with
    | none => simp
    | some y =>
      have hparentY := (h.holds.parent_of_child hx hchildX).2.1
      by_cases hyp : y = p
      · subst hyp
        have hnot : ¬ ((tree.nodes s).parent ≠ some y ∧ (tree.nodes s).parent = some x ∧
            some y = some s) := fun hboth => h.ne (some.inj hboth.2.2)
        rw [if_neg hnot, if_pos ⟨hparentY, rfl⟩, map_some, swap_apply_left]
      · by_cases hys : y = s
        · subst hys
          have hne : (tree.nodes y).parent ≠ some p := fun hp =>
            hxp (some.inj (hparentY.symm.trans hp))
          rw [if_pos ⟨hne, hparentY, rfl⟩, map_some, swap_apply_right]
        · rw [if_neg fun hboth => hys (some.inj hboth.2.2),
            if_neg fun hboth => hyp (some.inj hboth.2), map_some,
            swap_apply_of_ne_of_ne hyp hys]

/-- Nothing is told to the nodes that are not in the tree. -/
theorem relinkAround_outside {x : P} (hx : x ∉ t.toList) :
    (relinkAround tree p s).nodes x = tree.nodes x := by
  obtain ⟨hcolor, hparent, hchild, hkey⟩ := (relinkAround_spec h).1 x
  have hbelow : ∀ y ∈ t.toList, ∀ side, (tree.nodes y).child side ≠ some x := fun y hy side hside =>
    hx (h.holds.parent_of_child hy hside).1
  refine Node.eq_of_fields hcolor ?_ (fun side => ?_) hkey
  · have hrightS : (tree.nodes s).rightChild ≠ some x := hbelow s h.mem' .right
    rw [hparent, if_neg hrightS, if_neg]
    rintro (hl | ⟨-, hr⟩)
    · exact hbelow p h.mem .left hl
    · exact hbelow p h.mem .right hr
  · rw [hchild, if_neg fun hboth => hx (h.holds.child_of_parent h.mem' hboth.2.1).1,
      if_neg fun hboth => hx (h.holds.child_of_parent h.mem hboth.1).1]

end

theorem relink_eq (tree : BaseRedBlackTree P K) (p s : P) : relink tree p s =
      relinkInside (decide ((tree.nodes s).parent = some p)) (relinkAround tree p s) p s := by
  by_cases hneighbour : (tree.nodes s).parent = some p
  · simp [relink, relinkInside, relinkAround, relinkBelow, hneighbour]
  · simp only [relink, relinkInside, relinkAround, relinkBelow, hneighbour, decide_false,
      Bool.false_eq_true, if_false]

theorem map_swap_eq_self {o : Option P} (hp : o ≠ some p) (hs : o ≠ some s) :
    o.map (swap p s) = o := by
  cases o with
  | none => rfl
  | some x =>
    rw [map_some, swap_apply_of_ne_of_ne (fun h => hp (congrArg some h)) fun h =>
      hs (congrArg some h)]

section

variable (h : tree.Exchangeable t p s)

include h

theorem relinkInside_spec :
    (relink tree p s).nodes p = withKey ((tree.nodes s).rename (swap p s)) (tree.nodes p).key ∧
      (relink tree p s).nodes s =
        withKey ((tree.nodes p).rename (swap p s)) (tree.nodes s).key ∧
      (∀ x, x ≠ p → x ≠ s → (relink tree p s).nodes x = (relinkAround tree p s).nodes x) ∧
      (relink tree p s).root = (relinkAround tree p s).root ∧
      (relink tree p s).size = (relinkAround tree p s).size ∧
      (relink tree p s).minimum = (relinkAround tree p s).minimum := by
  obtain ⟨hselfP, hselfS⟩ := relinkAround_self h
  have hpParent : (tree.nodes p).parent ≠ some p := h.holds.parent_ne_self h.mem
  have hsParent : (tree.nodes s).parent ≠ some s := h.holds.parent_ne_self h.mem'
  have hparentP : (tree.nodes p).parent.map (swap p s) = (tree.nodes p).parent :=
    map_swap_eq_self hpParent h.parent_ne
  have hleftP : (tree.nodes p).leftChild.map (swap p s) = (tree.nodes p).leftChild :=
    map_swap_eq_self (h.child_ne h.mem hpParent .left) h.leftChild_ne
  have hleftS : (tree.nodes s).leftChild.map (swap p s) = (tree.nodes s).leftChild := by
    rw [h.leftChild]
    rfl
  have hrightS : (tree.nodes s).rightChild.map (swap p s) = (tree.nodes s).rightChild :=
    map_swap_eq_self (h.child_ne h.mem' h.parent_ne .right) (h.child_ne h.mem' hsParent .right)
  rw [relink_eq]
  by_cases hneighbour : (tree.nodes s).parent = some p
  · rw [decide_eq_true hneighbour]
    obtain ⟨hp, hs, hother⟩ := relinkInside_neighbours (relinkAround tree p s) h.ne
    rw [hselfP, hselfS] at hp hs
    have hright : (tree.nodes p).rightChild = some s := by
      obtain ⟨side, hside⟩ := (h.holds.child_of_parent h.mem' hneighbour).2
      cases side with
      | left => exact absurd hside h.leftChild_ne
      | right => exact hside
    refine ⟨hp.trans ?_, hs.trans ?_, hother⟩
    · rw [Node.rename, hleftS, hrightS, hneighbour, map_some, swap_apply_left]
    · rw [Node.rename, hleftP, hparentP, hright, map_some, swap_apply_right]
  · rw [decide_eq_false hneighbour]
    obtain ⟨hp, hs, hother⟩ := swapFields_spec (relinkAround tree p s) h.ne
    rw [hselfP, hselfS] at hp hs
    have hparentS : (tree.nodes s).parent.map (swap p s) = (tree.nodes s).parent :=
      map_swap_eq_self hneighbour hsParent
    have hrightP : (tree.nodes p).rightChild.map (swap p s) = (tree.nodes p).rightChild :=
      map_swap_eq_self (h.child_ne h.mem hpParent .right) fun hr => hneighbour (h.right_parent hr)
    refine ⟨hp.trans ?_, hs.trans ?_, hother⟩
    · rw [Node.rename, hleftS, hrightS, hparentS]
    · rw [Node.rename, hleftP, hrightP, hparentP]

theorem relink_nodes : (∀ x ∈ t.toList, (relink tree p s).nodes (swap p s x) =
      withKey ((tree.nodes x).rename (swap p s)) (tree.nodes (swap p s x)).key) ∧
    (∀ x ∉ t.toList, (relink tree p s).nodes x = tree.nodes x) ∧
    (relink tree p s).root = tree.root.map (swap p s) ∧
    (relink tree p s).size = tree.size ∧ (relink tree p s).minimum = tree.minimum := by
  obtain ⟨-, hroot, hsize, hminimum⟩ := relinkAround_spec h
  obtain ⟨hp, hs, hother, hroot', hsize', hminimum'⟩ := relinkInside_spec h
  refine ⟨fun x hx => ?_, fun x hx => ?_, ?_, hsize'.trans hsize, hminimum'.trans hminimum⟩
  · by_cases hxp : x = p
    · rw [hxp, swap_apply_left, hs]
    by_cases hxs : x = s
    · rw [hxs, swap_apply_right, hp]
    rw [swap_apply_of_ne_of_ne hxp hxs, hother x hxp hxs, relinkAround_rename h hx hxp hxs]
    rfl
  · rw [hother x (fun hxp => hx (hxp ▸ h.mem)) (fun hxs => hx (hxs ▸ h.mem')),
      relinkAround_outside h hx]
  · rw [hroot', hroot]
    by_cases hparent : (tree.nodes p).parent = none
    · rw [if_pos hparent, (h.holds.root_iff h.mem).mpr hparent, map_some,
        swap_apply_left]
    · rw [if_neg hparent]
      cases htop : tree.root with
      | none => rfl
      | some x =>
        have hxp : x ≠ p := by
          rintro rfl
          exact hparent ((h.holds.root_iff h.mem).mp htop)
        have hxs : x ≠ s := by
          rintro rfl
          exact h.parent ((h.holds.root_iff h.mem').mp htop)
        rw [map_some, swap_apply_of_ne_of_ne hxp hxs]

theorem relinked_relink : Relinked t.toList tree (tree.relink p s) := by
  obtain ⟨hnodes, houtside, -, hsize, hminimum⟩ := relink_nodes h
  refine ⟨hsize, hminimum, fun x => ?_, houtside⟩
  by_cases hx : x ∈ t.toList
  · have hmem : swap p s x ∈ t.toList := by
      by_cases hxp : x = p
      · rw [hxp, swap_apply_left]
        exact h.mem'
      by_cases hxs : x = s
      · rw [hxs, swap_apply_right]
        exact h.mem
      rwa [swap_apply_of_ne_of_ne hxp hxs]
    have hnode := hnodes _ hmem
    rw [Equiv.swap_apply_self] at hnode
    rw [hnode]
    rfl
  · rw [houtside x hx]

end

omit [DecidableEq P] in
/-- A node, and one below it on its right that has no left child. -/
theorem exchangeable_plug {lower ctx : List (Frame P)} {c cs : Color} {l rs : Tree P}
    (h : tree.Holds (plug (lower ++ ⟨.right, c, p, l⟩ :: ctx) (.node cs .nil s rs))) :
    tree.Exchangeable (plug (lower ++ ⟨.right, c, p, l⟩ :: ctx) (.node cs .nil s rs)) p s := by
  obtain ⟨-, hvalues, hdisjoint⟩ := nodup_plug.mp h.nodup
  have hs : s ∉ values (lower ++ ⟨.right, c, p, l⟩ :: ctx) :=
    fun hmem => hdisjoint (by simp [Tree.toList]) hmem
  rw [values_append, values] at hvalues hs
  simp only [mem_append, mem_cons, not_or] at hs
  obtain ⟨-, hsp, hsl, hsctx⟩ := hs
  -- the fields of the two
  have hplace : tree.Holds (plug ctx (.nodeOn .left c l p (plug lower (.node cs .nil s rs)))) := by
    rw [plug_append] at h
    exact h
  obtain ⟨-, hparentP, hleftP, -⟩ := hplace.at_node
  obtain ⟨-, hparentS, hleftS, -⟩ := @Holds.at_node _ _ tree _ .left cs .nil rs s h
  obtain ⟨y, hy, hmem⟩ := exists_parentOf_append lower ⟨.right, c, p, l⟩ ctx
  have hyctx : y ∉ values ctx := by
    intro hyctx
    rcases hmem with hy' | rfl
    · exact (nodup_append'.mp hvalues).2.2 hy' (by simp [hyctx])
    · exact (nodup_cons.mp (nodup_append'.mp hvalues).2.1).1
        (mem_append_right _ hyctx)
  refine ⟨h, ?_, ?_, Ne.symm hsp, hleftS, fun hl => ?_, fun hp => ?_, fun hsame => ?_, ?_⟩
  · rw [toList_plug, mem_append, mem_append, or_left_comm, ← mem_values, values_append,
      values]
    simp
  · rw [toList_plug]
    simp [Tree.toList]
  · exact hsl (Tree.top_mem (hleftP.symm.trans hl))
  · exact hsctx (mem_of_parentOf (hparentP.symm.trans hp))
  · exact hyctx (mem_of_parentOf (hparentP.symm.trans (hsame.trans (hparentS.trans hy))))
  · rw [hparentS, hy]
    exact some_ne_none y

theorem Holds.relink {lower ctx : List (Frame P)} {c cs : Color} {l rs : Tree P}
    (h : tree.Holds (plug (lower ++ ⟨.right, c, p, l⟩ :: ctx) (.node cs .nil s rs))) :
    (tree.relink p s).Holds (plug (lower ++ ⟨.right, c, s, l⟩ :: ctx) (.node cs .nil p rs)) := by
  obtain ⟨hnodes, -, hroot, -⟩ := relink_nodes (exchangeable_plug h)
  obtain ⟨hnodup, hvalues, hdisjoint⟩ := nodup_plug.mp h.nodup
  rw [values_append, values] at hvalues hdisjoint
  obtain ⟨-, hvalues, hlower⟩ := nodup_append'.mp hvalues
  have hfix : ∀ x, x ∈ values lower ∨ x ∈ l.toList ∨ x ∈ values ctx ∨ x ∈ rs.toList →
      swap p s x = x := by
    intro x hx
    refine swap_apply_of_ne_of_ne ?_ ?_
    · rintro rfl
      rcases hx with hx | hx | hx | hx
      · exact hlower hx mem_cons_self
      · exact (nodup_cons.mp hvalues).1 (mem_append_left _ hx)
      · exact (nodup_cons.mp hvalues).1 (mem_append_right _ hx)
      · exact hdisjoint (a := x) (by simp [Tree.toList, hx]) (by simp)
    · rintro rfl
      rcases hx with hx | hx | hx | hx
      · exact hdisjoint (a := x) (by simp [Tree.toList]) (by simp [hx])
      · exact hdisjoint (a := x) (by simp [Tree.toList]) (by simp [hx])
      · exact hdisjoint (a := x) (by simp [Tree.toList]) (by simp [hx])
      · exact ((@Tree.nodup_nodeOn _ .left cs .nil rs x).mp hnodup).2.1 hx
  have hmap : (plug (lower ++ ⟨.right, c, p, l⟩ :: ctx) (.node cs .nil s rs)).map (swap p s) =
      plug (lower ++ ⟨.right, c, s, l⟩ :: ctx) (.node cs .nil p rs) := by
    rw [map_plug, map_append, map_cons, Frame.map, Foundation.Tree.map,
      map_frames_eq_self fun x hx => hfix x (.inl hx),
      map_frames_eq_self fun x hx => hfix x (.inr (.inr (.inl hx))),
      Tree.map_eq_self fun x hx => hfix x (.inr (.inl hx)),
      Tree.map_eq_self fun x hx => hfix x (.inr (.inr (.inr hx))), swap_apply_left,
      swap_apply_right]
    rfl
  rw [← hmap]
  refine ⟨?_, ?_, ?_⟩
  · exact h.owns.rename hnodes
  · rw [hroot, h.root, Tree.top_map]
  · rw [Tree.toList_map]
    exact h.nodup.map (swap p s).injective

variable {ctx : List (Frame P)} {side : Side} {c : Color}

/-! ## Taking a node out -/

/-- The tree in which the child of a node has taken its place. -/
def splice (tree : BaseRedBlackTree P K) (parent : Option P) (node : P) (child : Option P) :
    BaseRedBlackTree P K :=
  (tree.setParentOf child parent).replaceChild parent node child

theorem relinked_splice (tree : BaseRedBlackTree P K) (ctx : List (Frame P)) (t : Tree P) (p : P) :
    Relinked (plug ctx t).toList tree (tree.splice (parentOf ctx) p t.top) := by
  refine (relinked_setParentOf tree _ fun x hx => ?_).trans
    (relinked_replaceChild _ p t.top fun x hx => ?_)
  · simp only [toList_plug, mem_append]
    exact .inr (.inl (Tree.top_mem hx))
  · rw [toList_plug, mem_append, mem_append, or_left_comm, ← mem_values]
    exact .inr (mem_of_parentOf hx)

section

variable (h : tree.Holds (plug ctx (.nodeOn side c t p .nil)))

include h

theorem Holds.splice : (tree.splice (parentOf ctx) p t.top).Holds (plug ctx t) := by
  obtain ⟨howns, hctx, hnodup, hctxNodup, hdisjoint⟩ := holds_plug.mp h
  obtain ⟨-, -, -, -, ht, -⟩ := owns_nodeOn.mp howns
  obtain ⟨-, -, htNodup, -, -⟩ := Tree.nodup_nodeOn.mp hnodup
  have htctx : t.toList.Disjoint (values ctx) := fun x hx =>
    hdisjoint (Tree.mem_nodeOn.mpr (.inr (.inl hx)))
  have hpctx : p ∉ values ctx := hdisjoint (Tree.mem_nodeOn.mpr (.inl rfl))
  obtain ⟨tree₁, htree₁⟩ : ∃ tree₁, tree₁ = tree.setParentOf t.top (parentOf ctx) := ⟨_, rfl⟩
  have ht₁ : Owns tree₁.nodes (parentOf ctx) t := htree₁ ▸ owns_setParentOf ht htNodup (parentOf ctx)
  have hctx₁ : Around tree₁.nodes none tree₁.root ctx (some p) := by
    rw [htree₁, setParentOf_root]
    rw [Tree.top_nodeOn] at hctx
    refine hctx.congr fun x hx => ?_
    refine (relinked_setParentOf tree (parentOf ctx) fun y hy => ?_).outside x fun hmem =>
      htctx hmem hx
    exact Tree.top_mem hy
  refine holds_plug.mpr ⟨?_, ?_, htNodup, hctxNodup, htctx⟩
  · rw [BaseRedBlackTree.splice, ← htree₁]
    refine ht₁.congr fun x hx => ?_
    refine (relinked_replaceChild tree₁ p t.top fun y hy => ?_).outside x fun hmem => htctx hx hmem
    exact mem_of_parentOf hy
  · rw [BaseRedBlackTree.splice, ← htree₁]
    exact around_replaceChild hctx₁ hctxNodup hpctx t.top

/-- `unlink` hangs the child in the place of the node, and repairs a black one's place. -/
theorem unlink_eq (fuel : Nat) : unlink fuel tree p =
      if c = .red then some (tree.splice (parentOf ctx) p t.top)
      else removeFixups fuel (tree.splice (parentOf ctx) p t.top) t.top (parentOf ctx) := by
  obtain ⟨hcolor, hparent, hnear, hfar⟩ := h.at_node
  have hchild : ((tree.nodes p).leftChild <|> (tree.nodes p).rightChild) = t.top := by
    cases side with
    | left =>
      have hl : (tree.nodes p).leftChild = t.top := hnear
      have hr : (tree.nodes p).rightChild = none := hfar
      rw [hl, hr]
      cases t.top <;> rfl
    | right =>
      have hl : (tree.nodes p).leftChild = none := hfar
      have hr : (tree.nodes p).rightChild = t.top := hnear
      rw [hl, hr]
      rfl
  have hpt : p ∉ (plug ctx t).toList := by
    obtain ⟨hnodup, -, hdisjoint⟩ := nodup_plug.mp h.nodup
    rw [toList_plug, mem_append, mem_append, or_left_comm, ← mem_values]
    rintro (hp | hp)
    · exact (Tree.nodup_nodeOn.mp hnodup).1 hp
    · exact hdisjoint (Tree.mem_nodeOn.mpr (.inl rfl)) hp
  have hsame : ((tree.splice (parentOf ctx) p t.top).nodes p) = tree.nodes p :=
    (relinked_splice tree ctx t p).outside p hpt
  have hparent₁ : ((tree.setParentOf t.top (parentOf ctx)).nodes p).parent = parentOf ctx := by
    rw [(tree.setParentOf_fields p t.top (parentOf ctx)).2.1]
    split_ifs
    · rfl
    · exact hparent
  rw [unlink, hchild, hparent]
  rw [hparent₁]
  rw [BaseRedBlackTree.splice] at hsame ⊢
  rw [hsame, hparent, hcolor]
  by_cases hred : c = .red
  · rw [if_neg (not_not.mpr hred), if_pos hred]
  · rw [if_pos hred, if_neg hred]

end

end BaseRedBlackTree

end Literate.AK
