import Literate.AK.RedBlackLookup
import Literate.AK.RedBlackRemove
import Literate.Foundation.Run

/-!
# AK: the intrusive red-black tree

`IntrusiveRedBlackTree` of `AK/IntrusiveRedBlackTree.h` with raw pointers: the values own their
nodes, which outlive the tree and come back to it with what an earlier life has left in them.  The
values that have been inserted and not removed are a map from values to keys, which the tree
implements as long as what comes back is fit for its new place.
-/

namespace Literate.AK

open Foundation Function List Option
open Function (update)

open BaseRedBlackTree (setChild setNode_nodes_self setNode_nodes_of_ne)

/-! ## The code -/

/-- A node is in a tree when its `m_in_tree` is set. -/
structure IntrusiveRedBlackTree (P K : Type) extends BaseRedBlackTree P K where
  inTree : P → Bool

/-- The operations that change an intrusive tree. -/
inductive IntrusiveOperation (P K : Type)
  | insert (key : K) (value : P)
  | remove (key : K)
  | clear

namespace IntrusiveRedBlackTree

variable {P K : Type} [DecidableEq P]

def setKey (tree : BaseRedBlackTree P K) (p : P) (key : K) : BaseRedBlackTree P K :=
  tree.setNode p { tree.nodes p with key }

def insert [LinearOrder K] (fuel : Nat) (tree : IntrusiveRedBlackTree P K) (key : K) (value : P) :
    Option (IntrusiveRedBlackTree P K) :=
  if tree.inTree value then none
  else
    ((setKey tree.toBaseRedBlackTree value key).insert fuel value).map fun base =>
      { toBaseRedBlackTree := base, inTree := update tree.inTree value true }

/-- What `remove` does with the node that the tree has let go. -/
def release (base : BaseRedBlackTree P K) (node : P) : BaseRedBlackTree P K :=
  (base.setChild .right node none).setChild .left node none

def remove [LinearOrder K] (fuel : Nat) (tree : IntrusiveRedBlackTree P K) (key : K) :
    Option (IntrusiveRedBlackTree P K × Bool) :=
  (tree.find key fuel tree.root).bind fun node =>
    match node with
    | none => some (tree, false)
    | some node =>
      (tree.toBaseRedBlackTree.remove fuel node).map fun base =>
        ({ toBaseRedBlackTree := release base node,
           inTree := update tree.inTree node false }, true)

def clearNodes : Nat → IntrusiveRedBlackTree P K → Option P → Option (IntrusiveRedBlackTree P K)
  | _, tree, none => some tree
  | 0, _, some _ => none
  | fuel + 1, tree, some node =>
    (clearNodes fuel tree (tree.nodes node).rightChild).bind fun tree =>
      let tree := { tree with
        toBaseRedBlackTree := tree.toBaseRedBlackTree.setChild .right node none }
      (clearNodes fuel tree (tree.nodes node).leftChild).map fun tree =>
        { toBaseRedBlackTree := tree.toBaseRedBlackTree.setChild .left node none,
          inTree := update tree.inTree node false }

def clear (fuel : Nat) (tree : IntrusiveRedBlackTree P K) : Option (IntrusiveRedBlackTree P K) :=
  (clearNodes fuel tree tree.root).map fun tree =>
    { tree with root := none, minimum := none, size := 0 }

def step [LinearOrder K] (fuel : Nat) (tree : IntrusiveRedBlackTree P K) :
    IntrusiveOperation P K → Option (IntrusiveRedBlackTree P K)
  | .insert key value => tree.insert fuel key value
  | .remove key => (tree.remove fuel key).map Prod.fst
  | .clear => tree.clear fuel

/-- An empty tree and nodes that have not been in one. -/
def unused (keys : P → K) : IntrusiveRedBlackTree P K where
  nodes := fun p => { key := keys p }
  inTree := fun _ => false

end IntrusiveRedBlackTree

/-! ## What the tree is for -/

section

variable {P K : Type} [DecidableEq P]

/-- What an operation does to the values inserted and not yet removed, and their keys: `remove`
takes out one of the values with the key. -/
def ValuesAfter (values : P → Option K) : IntrusiveOperation P K → (P → Option K) → Prop
  | .insert key value, values' => values' = update values value (some key)
  | .remove key, values' =>
    (∃ p, values p = some key ∧ values' = update values p none) ∨
      (∀ p, values p ≠ some key) ∧ values' = values
  | .clear, values' => values' = fun _ => none

end

namespace IntrusiveRedBlackTree

variable {P K : Type} [DecidableEq P]

/-- The values in the nodes of a tree, with their keys. -/
def contents (tree : BaseRedBlackTree P K) (t : Tree P) (p : P) : Option K :=
  if p ∈ t.toList then some (tree.nodes p).key else none

/-- The red-black invariants hold, and the tree contains exactly these values. -/
def Contains [LinearOrder K] (tree : IntrusiveRedBlackTree P K) (values : P → Option K) : Prop :=
  ∃ t, tree.Valid t ∧ values = contents tree.toBaseRedBlackTree t ∧
    ∀ p, tree.inTree p = true ↔ p ∈ t.toList

/-- A value is inserted only while it is not in the tree. -/
def Allowed (tree : IntrusiveRedBlackTree P K) : IntrusiveOperation P K → Prop
  | .insert _ value => tree.inTree value = false
  | _ => True

instance Allowed.decidable (tree : IntrusiveRedBlackTree P K) :
    ∀ operation, Decidable (tree.Allowed operation)
  | .insert _ value => inferInstanceAs (Decidable (tree.inTree value = false))
  | .remove _ => .isTrue trivial
  | .clear => .isTrue trivial

/-- A node that is inserted is red, or without a parent when it becomes the root, and the place of
a node that is removed can do without it. -/
def Reusable [LinearOrder K] (fuel : Nat) (tree : IntrusiveRedBlackTree P K) : IntrusiveOperation P K → Prop
  | .insert _ value =>
    (tree.root = none → (tree.nodes value).parent = none) ∧
      (tree.root ≠ none → (tree.nodes value).color = .red)
  | .remove key =>
    ∀ p, tree.find key fuel tree.root = some (some p) →
      ∃ t, tree.Holds t ∧ Removable t p
  | .clear => True

end IntrusiveRedBlackTree

/-! ## Insertion of a node that has been in a tree -/

namespace BaseRedBlackTree

variable {P K : Type} [DecidableEq P] [LinearOrder K] {tree tree' : BaseRedBlackTree P K}
  {t : Tree P} {node : P} {fuel : Nat}

omit [DecidableEq P] in
/-- The invariants are about the nodes of the tree alone. -/
theorem Valid.congr (h : tree.Valid t) (hnodes : ∀ x ∈ t.toList, tree'.nodes x = tree.nodes x)
    (hroot : tree'.root = tree.root) (hminimum : tree'.minimum = tree.minimum)
    (hsize : tree'.size = tree.size) : tree'.Valid t where
  holds := ⟨h.holds.owns.congr hnodes, hroot.trans h.holds.root, h.holds.nodup⟩
  redBlack := h.redBlack
  sorted := h.sorted.imp_of_mem fun {p q} hp hq hpq => by rwa [hnodes p hp, hnodes q hq]
  minimum := hminimum.trans h.minimum
  size := hsize.trans h.size

omit [DecidableEq P] [LinearOrder K] in
theorem Holds.root_eq_none (h : tree.Holds t) : tree.root = none ↔ t = .nil := by
  rw [h.root, Tree.top_eq_none]

theorem insert_parent_fails (h : tree.Valid .nil) (hparent : (tree.nodes node).parent ≠ none)
    (hinsert : insert fuel tree node = some tree') (t' : Tree P) : ¬ tree'.Holds t' := by
  intro h'
  have hplace : insertParent tree (tree.nodes node).key fuel none tree.root = some none := by
    rw [h.holds.root]
    cases fuel <;> rfl
  rw [insert, hplace, bind_some, some.injEq] at hinsert
  subst hinsert
  cases t' with
  | nil => cases h'.root
  | node c l p r =>
    obtain rfl : node = p := some.inj h'.root
    have hnone := h'.owns.2.1
    rw [setColor, setNode_nodes_self] at hnone
    exact hparent hnone

omit [DecidableEq P] in
/-- A black leaf below the root makes the paths through it longer. -/
theorem not_redBlack_leaf {frame : Frame P} (h : (plug [frame] (.nil : Tree P)).RedBlack) (p : P) :
    ¬ (plug [frame] (.node .black .nil p .nil)).RedBlack := by
  intro h'
  obtain ⟨n, hnil, hfits⟩ := redBlack_plug.mp h
  obtain ⟨m, hleaf, hfits'⟩ := redBlack_plug.mp h'
  obtain rfl : n = 0 := hnil.height
  have hone : (Foundation.Tree.node .black .nil p .nil).Proper 1 :=
    (@Tree.proper_black _ .left .nil .nil p 0).mpr ⟨hnil, hnil⟩
  have hm := hleaf.height.unique hone.height
  have hzero := hfits'.2.1.height.unique hfits.2.1.height
  omega

omit [LinearOrder K] in
theorem holds_insertFinish (hfinish : insertFinish tree node = some tree') (h : tree'.Holds t) :
    tree.Holds t := by
  rw [insertFinish] at hfinish
  split at hfinish
  · cases hfinish
  · split at hfinish
    · cases hfinish
      exact ⟨h.owns, h.root, h.nodup⟩
    · cases hfinish
      exact ⟨h.owns, h.root, h.nodup⟩

/-- A black node fails the `VERIFY` of `insert_fixups`, and below the root it is a black leaf. -/
theorem insert_black_fails (h : tree.Valid t) (ht : t ≠ .nil) (hnode : node ∉ t.toList)
    (hleft : (tree.nodes node).leftChild = none) (hright : (tree.nodes node).rightChild = none)
    (hblack : (tree.nodes node).color ≠ .red) (hfuel : t.toList.length < fuel)
    (hinsert : insert fuel tree node = some tree') (t' : Tree P) : ¬ tree'.Valid t' := by
  intro h'
  obtain ⟨ctx, hparent, hplug, hbefore, hafter⟩ := @insertParent_spec _ _ _ tree
    (tree.nodes node).key t [] fuel h.holds h.sorted nofun nofun (by omega)
  cases ctx with
  | nil => exact ht hplug.symm
  | cons frame ctx =>
    obtain rfl : plug (frame :: ctx) .nil = t := hplug
    have hside := side_of_key hbefore hafter
    have hattached := attach_spec h.holds hnode hleft hright (Color.eq_black_of_ne_red hblack)
    rw [insert, show tree.root = (plug (frame :: ctx) .nil).top from h.holds.root,
      show insertParent tree (tree.nodes node).key fuel none (plug (frame :: ctx) .nil).top =
        some (some frame.value) from hparent] at hinsert
    simp only [bind_some, hside] at hinsert
    rw [hattached.at_frame.2.1] at hinsert
    cases ctx with
    | nil =>
      have hholds := holds_insertFinish hinsert h'.holds
      exact not_redBlack_leaf h.redBlack node (hattached.unique hholds ▸ h'.redBlack)
    | cons frame' ctx =>
      have hcolor := (@Holds.at_node _ _ _ (frame :: frame' :: ctx) .left .black .nil .nil node
        hattached).1
      rw [if_pos (by simp [parentOf, parentFrom]), insertFixups, if_neg (by simp [hcolor])]
        at hinsert
      cases hinsert

/-- What it takes to insert a node without children: `insert` works with no other. -/
theorem insert_iff (h : tree.Valid t) (hnode : node ∉ t.toList)
    (hleft : (tree.nodes node).leftChild = none) (hright : (tree.nodes node).rightChild = none)
    (hfuel : t.toList.length < fuel) :
    (∃ tree' t', insert fuel tree node = some tree' ∧ tree'.Valid t') ↔ tree.Insertable t node := by
  constructor
  · rintro ⟨tree', t', hinsert, h'⟩
    refine ⟨hnode, hleft, hright, fun ht => ?_, fun ht => ?_⟩
    · subst ht
      by_contra hparent
      exact insert_parent_fails h hparent hinsert t' h'.holds
    · by_contra hblack
      exact insert_black_fails h ht hnode hleft hright hblack hfuel hinsert t' h'
  · intro hinsertable
    obtain ⟨tree', t', hinsert, h', -⟩ := insert_valid h hinsertable hfuel
    exact ⟨tree', t', hinsert, h'⟩

omit [DecidableEq P] in
theorem mem_inserted {x : P} : x ∈ inserted tree t node ↔ x = node ∨ x ∈ t.toList := by
  simp only [inserted, mem_append, mem_cons, mem_filter, decide_eq_true_eq]
  have hcases := le_or_gt (tree.nodes x).key (tree.nodes node).key
  tauto

end BaseRedBlackTree

namespace IntrusiveRedBlackTree

variable {P K : Type} [DecidableEq P]

/-! ## Clearing -/

/-- What `clear_nodes` leaves of the nodes of a subtree. -/
def cleared (tree : IntrusiveRedBlackTree P K) (l : List P) : IntrusiveRedBlackTree P K where
  toBaseRedBlackTree := { tree.toBaseRedBlackTree with
    nodes := fun p =>
      if p ∈ l then { tree.nodes p with leftChild := none, rightChild := none } else tree.nodes p }
  inTree := fun p => if p ∈ l then false else tree.inTree p

omit [DecidableEq P] in
theorem eq_of_parts {tree tree' : IntrusiveRedBlackTree P K} (hnodes : ∀ x, tree.nodes x = tree'.nodes x)
    (hinTree : ∀ x, tree.inTree x = tree'.inTree x) (hroot : tree.root = tree'.root)
    (hsize : tree.size = tree'.size) (hminimum : tree.minimum = tree'.minimum) : tree = tree' := by
  obtain ⟨⟨nodes, root, size, minimum⟩, inTree⟩ := tree
  obtain ⟨⟨nodes', root', size', minimum'⟩, inTree'⟩ := tree'
  obtain rfl : nodes = nodes' := funext hnodes
  obtain rfl : inTree = inTree' := funext hinTree
  cases hroot
  cases hsize
  cases hminimum
  rfl

theorem clearNodes_spec {tree : IntrusiveRedBlackTree P K} {t : Tree P} {parent : Option P}
    {fuel : Nat} (h : Owns tree.nodes parent t) (hnodup : t.toList.Nodup)
    (hfuel : t.toList.length ≤ fuel) : clearNodes fuel tree t.top = some (tree.cleared t.toList) := by
  induction t generalizing tree parent fuel with
  | nil =>
    have hsame : tree.cleared [] = tree := by simp [cleared]
    cases fuel <;> rw [Tree.top, clearNodes, Tree.toList, hsame]
  | node c l p r ihl ihr =>
    obtain ⟨-, -, hleft, hright, hl, hr⟩ := h
    obtain ⟨hpl, hpr, hnodupl, hnodupr, hdisjoint⟩ :=
      (@Tree.nodup_nodeOn _ .left c l r p).mp hnodup
    rw [Tree.toList, length_append, length_cons] at hfuel
    obtain ⟨fuel, rfl⟩ := Nat.exists_eq_succ_of_ne_zero (show fuel ≠ 0 by omega)
    -- when the right child has been cleared and set to null
    let tree₁ := { tree.cleared r.toList with toBaseRedBlackTree :=
        (tree.cleared r.toList).toBaseRedBlackTree.setChild .right p none }
    have hp : tree₁.nodes p = { tree.nodes p with rightChild := none } := by
      simp [tree₁, setChild, cleared, hpr, Node.setChild]
    have hne : ∀ x, x ≠ p → tree₁.nodes x = (tree.cleared r.toList).nodes x := fun x hx =>
      setNode_nodes_of_ne _ _ _ hx
    have hl₁ : Owns tree₁.nodes (some p) l := hl.congr fun x hx => by
      rw [hne x fun heq => hpl (heq ▸ hx)]
      exact if_neg fun hxr => hdisjoint hx hxr
    rw [Tree.top, clearNodes, hright, ihr hr hnodupr (by omega), bind_some]
    change (clearNodes fuel tree₁ (tree₁.nodes p).leftChild).map _ = _
    rw [hp, hleft, ihl hl₁ hnodupl (by omega), map_some, some.injEq]
    have hmem : ∀ x, x ∈ (Foundation.Tree.node c l p r).toList ↔ x = p ∨ x ∈ l.toList ∨ x ∈ r.toList :=
      fun x => @Tree.mem_nodeOn _ .left c l r p x
    refine eq_of_parts (fun x => ?_) (fun x => ?_) rfl rfl rfl
    · by_cases hx : x = p
      · subst hx
        simp [setChild, cleared, hpl, hp, hmem, Node.setChild]
      · have hleave : ((tree₁.cleared l.toList).toBaseRedBlackTree.setChild .left p none).nodes x =
            (tree₁.cleared l.toList).nodes x := setNode_nodes_of_ne _ _ _ hx
        rw [hleave]
        by_cases hxl : x ∈ l.toList
        · have hxr : x ∉ r.toList := fun hxr => hdisjoint hxl hxr
          simp [cleared, hxl, hmem, hne x hx, hxr]
        · simp [cleared, hxl, hmem, hne x hx, hx]
    · by_cases hx : x = p
      · subst hx
        simp [cleared, hmem]
      · by_cases hxl : x ∈ l.toList
        · simp [cleared, hxl, hmem, hx]
        · simp [cleared, hxl, hmem, hx, tree₁]

variable [LinearOrder K]

/-! ## The operations -/

/-- The tree is red-black, `m_in_tree` tells its nodes, and no other node has children. -/
structure Keeps (tree : IntrusiveRedBlackTree P K) (t : Tree P) : Prop where
  valid : tree.Valid t
  inTree : ∀ p, tree.inTree p = true ↔ p ∈ t.toList
  leftChild : ∀ p ∉ t.toList, (tree.nodes p).leftChild = none
  rightChild : ∀ p ∉ t.toList, (tree.nodes p).rightChild = none

variable {tree tree' : IntrusiveRedBlackTree P K} {t t' : Tree P} {key : K} {value : P} {fuel : Nat}

theorem Keeps.contains (h : tree.Keeps t) : tree.Contains (contents tree.toBaseRedBlackTree t) :=
  ⟨t, h.valid, rfl, h.inTree⟩

omit [LinearOrder K] in
theorem setKey_nodes_of_ne (base : BaseRedBlackTree P K) (key : K) {p x : P} (hx : x ≠ p) :
    (setKey base p key).nodes x = base.nodes x :=
  setNode_nodes_of_ne _ _ _ hx

omit [LinearOrder K] in
theorem setKey_nodes_self (base : BaseRedBlackTree P K) (key : K) (p : P) :
    (setKey base p key).nodes p = { base.nodes p with key } :=
  setNode_nodes_self _ _ _

omit [LinearOrder K] in
theorem release_nodes_of_ne (base : BaseRedBlackTree P K) {p x : P} (hx : x ≠ p) :
    (release base p).nodes x = base.nodes x :=
  (setNode_nodes_of_ne _ _ _ hx).trans (setNode_nodes_of_ne _ _ _ hx)

omit [LinearOrder K] in
theorem release_nodes_self (base : BaseRedBlackTree P K) (p : P) :
    (release base p).nodes p = { base.nodes p with leftChild := none, rightChild := none } := by
  simp [release, setChild, Node.setChild]

omit [DecidableEq P] in
theorem Keeps.notMem (h : tree.Keeps t) (hvalue : tree.inTree value = false) : value ∉ t.toList := by
  rw [← h.inTree, hvalue]
  exact Bool.false_ne_true

section

variable (h : tree.Keeps t)

include h

theorem Keeps.setKey (hvalue : tree.inTree value = false) (key : K) :
    (setKey tree.toBaseRedBlackTree value key).Valid t :=
  h.valid.congr
    (fun _ hx => setKey_nodes_of_ne _ _ fun heq => h.notMem hvalue (heq ▸ hx)) rfl rfl rfl

/-- What `insert` finds at the node is what its condition is about. -/
theorem Keeps.insertable_iff (hvalue : tree.inTree value = false) :
    (IntrusiveRedBlackTree.setKey tree.toBaseRedBlackTree value key).Insertable t value ↔
      tree.Reusable fuel (.insert key value) := by
  have hnode := setKey_nodes_self tree.toBaseRedBlackTree key value
  have hroot := h.valid.holds.root_eq_none
  constructor
  · rintro ⟨-, -, -, hparent, hred⟩
    rw [hnode] at hparent hred
    exact ⟨fun hnone => hparent (hroot.mp hnone), fun hsome => hred fun hnil => hsome (hroot.mpr hnil)⟩
  · rintro ⟨hparent, hred⟩
    refine ⟨h.notMem hvalue, ?_, ?_, fun hnil => ?_, fun hne => ?_⟩
    · rw [hnode]
      exact h.leftChild value (h.notMem hvalue)
    · rw [hnode]
      exact h.rightChild value (h.notMem hvalue)
    · rw [hnode]
      exact hparent (hroot.mpr hnil)
    · rw [hnode]
      exact hred fun hnone => hne (hroot.mp hnone)

theorem insert_spec (hvalue : tree.inTree value = false)
    (hreusable : tree.Reusable fuel (.insert key value)) (hfuel : t.toList.length < fuel) :
    ∃ tree' t', tree.insert fuel key value = some tree' ∧ tree'.Keeps t' ∧
      contents tree'.toBaseRedBlackTree t' =
        update (contents tree.toBaseRedBlackTree t) value (some key) ∧
      t'.toList.length = t.toList.length + 1 := by
  obtain ⟨base, t', hinsert, hvalid, hlist, hkey, houtside⟩ :=
    BaseRedBlackTree.insert_valid (h.setKey hvalue key) ((h.insertable_iff hvalue).mpr hreusable) hfuel
  have hmem : ∀ x, x ∈ t'.toList ↔ x = value ∨ x ∈ t.toList := fun x => by
    rw [hlist, BaseRedBlackTree.mem_inserted]
  have hsame : ∀ x ∉ t'.toList, base.nodes x = tree.nodes x := fun x hx =>
    (houtside x hx).trans (setKey_nodes_of_ne _ _ fun heq => hx ((hmem x).mpr (.inl heq)))
  have hperm : t'.toList.Perm (value :: t.toList) :=
    (perm_ext_iff_of_nodup hvalid.holds.nodup
      (nodup_cons.mpr ⟨h.notMem hvalue, h.valid.holds.nodup⟩)).mpr fun x => by
        rw [hmem, mem_cons]
  refine ⟨_, t', by rw [insert, if_neg (by simp [hvalue]), hinsert]; rfl, ⟨hvalid, fun p => ?_,
    fun p hp => ?_, fun p hp => ?_⟩, funext fun p => ?_, hperm.length_eq⟩
  · dsimp only
    rw [hmem]
    by_cases hp : p = value
    · simp [hp]
    · simp [hp, h.inTree]
  · exact (congrArg Node.leftChild (hsame p hp)).trans
      (h.leftChild p fun hpt => hp ((hmem p).mpr (.inr hpt)))
  · exact (congrArg Node.rightChild (hsame p hp)).trans
      (h.rightChild p fun hpt => hp ((hmem p).mpr (.inr hpt)))
  · rw [contents, hkey]
    by_cases hp : p = value
    · subst hp
      rw [if_pos ((hmem p).mpr (.inl rfl)), setKey_nodes_self, update_self]
    · rw [setKey_nodes_of_ne _ _ hp, update_of_ne hp, contents]
      simp [hmem, hp]

theorem insert_fails (hvalue : tree.inTree value = false)
    (hreusable : ¬ tree.Reusable fuel (.insert key value)) (hfuel : t.toList.length < fuel)
    (hinsert : tree.insert fuel key value = some tree') (values : P → Option K) :
    ¬ tree'.Contains values := by
  rintro ⟨t', h', -, -⟩
  rw [insert, if_neg (by simp [hvalue])] at hinsert
  obtain ⟨base, hbase, rfl⟩ := map_eq_some_iff.mp hinsert
  have hnode := setKey_nodes_self tree.toBaseRedBlackTree key value
  have hiff := BaseRedBlackTree.insert_iff (h.setKey hvalue key) (h.notMem hvalue)
    (by rw [hnode]; exact h.leftChild value (h.notMem hvalue))
    (by rw [hnode]; exact h.rightChild value (h.notMem hvalue)) hfuel
  exact hreusable ((h.insertable_iff hvalue).mp (hiff.mp ⟨base, t', hbase, h'⟩))

theorem Keeps.find (key : K) (hfuel : t.toList.length < fuel) :
    ∃ r, tree.find key fuel tree.root = some r ∧ tree.Found t key r := by
  rw [h.valid.holds.root]
  exact BaseRedBlackTree.find_spec (Nat.le_of_lt hfuel) h.valid.holds.owns h.valid.sorted

end

omit [LinearOrder K] in
theorem contents_eq_some {p : P} :
    contents tree.toBaseRedBlackTree t p = some key ↔ p ∈ t.toList ∧ (tree.nodes p).key = key := by
  rw [contents]
  split
  · next hp => simp [hp]
  · next hp => simp [hp]

theorem remove_spec (h : tree.Keeps t) (hreusable : tree.Reusable fuel (.remove key))
    (hfuel : t.toList.length < fuel) :
    ∃ tree' t' found, tree.remove fuel key = some (tree', found) ∧ tree'.Keeps t' ∧
      (found = true ↔ ∃ p, contents tree.toBaseRedBlackTree t p = some key) ∧
      ValuesAfter (contents tree.toBaseRedBlackTree t) (.remove key)
        (contents tree'.toBaseRedBlackTree t') ∧
      t'.toList.length ≤ t.toList.length := by
  obtain ⟨r, hfind, hfound⟩ := h.find key hfuel
  cases r with
  | none =>
    have hnot : ∀ p, contents tree.toBaseRedBlackTree t p ≠ some key := fun p hp =>
      hfound ⟨p, contents_eq_some.mp hp⟩
    refine ⟨tree, t, false, by rw [remove, hfind]; rfl, h, ?_, .inr ⟨hnot, rfl⟩, le_rfl⟩
    simpa using hnot
  | some node =>
    obtain ⟨t₁, h₁, hremovable⟩ := hreusable node hfind
    obtain rfl := h₁.unique h.valid.holds
    obtain ⟨base, t', hremove, hvalid, hlist, hkey, houtside⟩ :=
      BaseRedBlackTree.remove_valid h.valid hremovable hfuel
    have hmem : ∀ x, x ∈ t'.toList ↔ x ≠ node ∧ x ∈ t₁.toList := fun x => by
      rw [hlist, h.valid.holds.nodup.mem_erase_iff]
    have hvalue : contents tree.toBaseRedBlackTree t₁ node = some key := contents_eq_some.mpr hfound
    have hleft : (release base node).Valid t' := hvalid.congr
      (fun x hx => release_nodes_of_ne base ((hmem x).mp hx).1) rfl rfl rfl
    have hsame : ∀ x ∉ t'.toList, x ≠ node →
        (release base node).nodes x = tree.nodes x ∧ x ∉ t₁.toList := fun x hx hne => by
      have hx₁ : x ∉ t₁.toList := fun hx₁ => hx ((hmem x).mpr ⟨hne, hx₁⟩)
      exact ⟨(release_nodes_of_ne base hne).trans (houtside x hx₁), hx₁⟩
    have hresult : tree.remove fuel key = some
        ({ toBaseRedBlackTree := release base node,
           inTree := update tree.inTree node false }, true) := by
      rw [remove, hfind, bind_some]
      dsimp only
      rw [hremove]
      rfl
    refine ⟨_, t', true, hresult,
      ⟨hleft, fun p => ?_, fun p hp => ?_, fun p hp => ?_⟩, by simpa using ⟨node, hvalue⟩,
      .inl ⟨node, hvalue, funext fun p => ?_⟩, hlist ▸ erase_sublist.length_le⟩
    · dsimp only
      rw [hmem]
      by_cases hp : p = node
      · simp [hp]
      · simp [hp, h.inTree]
    · by_cases hnode : p = node
      · subst hnode
        exact congrArg Node.leftChild (release_nodes_self base p)
      · obtain ⟨heq, hp₁⟩ := hsame p hp hnode
        exact (congrArg Node.leftChild heq).trans (h.leftChild p hp₁)
    · by_cases hnode : p = node
      · subst hnode
        exact congrArg Node.rightChild (release_nodes_self base p)
      · obtain ⟨heq, hp₁⟩ := hsame p hp hnode
        exact (congrArg Node.rightChild heq).trans (h.rightChild p hp₁)
    · by_cases hp : p = node
      · subst hp
        rw [update_self, contents, if_neg fun hpt => ((hmem p).mp hpt).1 rfl]
      · simp only [update_of_ne hp, contents, release_nodes_of_ne base hp, hkey]
        simp [hmem, hp]

theorem remove_fails (h : tree.Keeps t) (hreusable : ¬ tree.Reusable fuel (.remove key))
    (hfuel : t.toList.length < fuel) {found : Bool}
    (hremove : tree.remove fuel key = some (tree', found)) (values : P → Option K) :
    ¬ tree'.Contains values := by
  rintro ⟨t', h', -, hinTree⟩
  obtain ⟨r, hfind, hfound⟩ := h.find key hfuel
  refine hreusable fun node hnode => ?_
  obtain rfl : r = some node := some.inj (hfind.symm.trans hnode)
  rw [remove, hfind, bind_some] at hremove
  obtain ⟨base, hbase, hrelease⟩ := map_eq_some_iff.mp hremove
  cases hrelease
  -- the node is not in the tree that it leaves
  have hnot : node ∉ t'.toList := fun hmem => by
    have hfalse := (hinTree node).mpr hmem
    simp at hfalse
  have hvalid : base.Valid t' := h'.congr
    (fun x hx => (release_nodes_of_ne base fun (heq : x = node) => hnot (heq ▸ hx)).symm) rfl rfl rfl
  refine ⟨t, h.valid.holds, ?_⟩
  obtain ⟨ctx, c, l, r, rfl⟩ := exists_plug hfound.1
  by_contra hremovable
  exact BaseRedBlackTree.remove_fails h.valid (fun hspares => hremovable ⟨ctx, c, l, r, rfl, hspares⟩)
    hfuel hbase t' hvalid

theorem clear_spec (h : tree.Keeps t) (hfuel : t.toList.length < fuel) :
    ∃ tree', tree.clear fuel = some tree' ∧ tree'.Keeps .nil := by
  have hclear : tree.clear fuel =
      some { tree.cleared t.toList with root := none, minimum := none, size := 0 } := by
    rw [clear, h.valid.holds.root,
      clearNodes_spec h.valid.holds.owns h.valid.holds.nodup (Nat.le_of_lt hfuel)]
    rfl
  refine ⟨_, hclear, ⟨⟨trivial, rfl, nodup_nil⟩, ⟨rfl, 0, Tree.proper_nil⟩, List.Pairwise.nil,
    rfl, rfl⟩, fun p => ?_, fun p _ => ?_, fun p _ => ?_⟩
  · by_cases hp : p ∈ t.toList
    · simp [cleared, hp, Tree.toList]
    · simp [cleared, hp, Tree.toList, h.inTree]
  · by_cases hp : p ∈ t.toList
    · simp [cleared, hp]
    · simp [cleared, hp, h.leftChild]
  · by_cases hp : p ∈ t.toList
    · simp [cleared, hp]
    · simp [cleared, hp, h.rightChild]

/-! ## Runs -/

/-- The state that the operations to come begin with. -/
def Serves (fuel : Nat) (operations : List (IntrusiveOperation P K)) (tree : IntrusiveRedBlackTree P K)
    (values : P → Option K) : Prop :=
  ∃ t, tree.Keeps t ∧ values = contents tree.toBaseRedBlackTree t ∧
    t.toList.length + operations.length ≤ fuel ∧ Each (step fuel) Allowed tree operations

theorem Contains.unique {values values' : P → Option K}
    (h : tree.Contains values) (h' : tree.Contains values') : values = values' := by
  obtain ⟨t, ht, rfl, -⟩ := h
  obtain ⟨t', ht', rfl, -⟩ := h'
  rw [ht.holds.unique ht'.holds]

variable {operation : IntrusiveOperation P K} {operations : List (IntrusiveOperation P K)}

theorem step_serves {values : P → Option K} (h : Serves fuel (operation :: operations) tree values)
    (hreusable : tree.Reusable fuel operation) :
    ∃ tree' values', step fuel tree operation = some tree' ∧ ValuesAfter values operation values' ∧
      Serves fuel operations tree' values' := by
  obtain ⟨t, hkeeps, rfl, hlength, hallowed⟩ := h
  rw [length_cons] at hlength
  have hfuel : t.toList.length < fuel := by omega
  cases operation with
  | insert key value =>
    obtain ⟨tree', t', hinsert, hkeeps', hcontents, hlength'⟩ :=
      insert_spec hkeeps hallowed.1 hreusable hfuel
    exact ⟨tree', _, hinsert, hcontents, t', hkeeps', rfl, by omega, hallowed.2 tree' hinsert⟩
  | remove key =>
    obtain ⟨tree', t', found, hremove, hkeeps', -, hstores, hlength'⟩ :=
      remove_spec hkeeps hreusable hfuel
    have hstep : step fuel tree (.remove key) = some tree' := by rw [step, hremove]; rfl
    exact ⟨tree', _, hstep, hstores, t', hkeeps', rfl, by omega, hallowed.2 tree' hstep⟩
  | clear =>
    obtain ⟨tree', hclear, hkeeps'⟩ := clear_spec hkeeps hfuel
    refine ⟨tree', _, hclear, rfl, .nil, hkeeps', ?_, ?_, hallowed.2 tree' hclear⟩
    · funext p
      simp [contents, Tree.toList]
    · rw [Tree.toList, length_nil]
      omega

theorem step_misses
    {values values' : P → Option K} (h : Serves fuel (operation :: operations) tree values)
    (hreusable : ¬ tree.Reusable fuel operation) (hstep : step fuel tree operation = some tree') :
    ¬ tree'.Contains values' := by
  obtain ⟨t, hkeeps, rfl, hlength, hallowed⟩ := h
  rw [length_cons] at hlength
  have hfuel : t.toList.length < fuel := by omega
  cases operation with
  | insert key value => exact insert_fails hkeeps hallowed.1 hreusable hfuel hstep values'
  | remove key =>
    obtain ⟨⟨tree₁, found⟩, hremove, rfl⟩ := map_eq_some_iff.mp hstep
    exact remove_fails hkeeps hreusable hfuel hremove values'
  | clear => exact absurd trivial hreusable

/-- No operation fails and the tree contains after each of them what has been inserted and not
removed, exactly when what comes back to the tree, and what leaves it, is fit for that. -/
theorem implements_iff (keys : P → K) (operations : List (IntrusiveOperation P K)) (fuel : Nat)
    (hfuel : operations.length ≤ fuel) (hallowed : Each (step fuel) Allowed (unused keys) operations) :
    Implements (step fuel) ValuesAfter Contains (unused keys) (fun _ => none) operations ↔
      Each (step fuel) (Reusable fuel) (unused keys) operations := by
  have hunused : (unused keys).Keeps .nil := by
    refine ⟨⟨⟨trivial, rfl, nodup_nil⟩, ⟨rfl, 0, Tree.proper_nil⟩, List.Pairwise.nil, rfl, rfl⟩,
      fun p => ?_, fun _ _ => rfl, fun _ _ => rfl⟩
    simp [unused, Tree.toList]
  have hserves : Serves fuel operations (unused keys) fun _ => none := by
    refine ⟨.nil, hunused, funext fun p => ?_, ?_, hallowed⟩
    · simp [contents, Tree.toList]
    · rwa [Tree.toList, length_nil, Nat.zero_add]
  have hcontains : ∀ operations (tree : IntrusiveRedBlackTree P K) values,
      Serves fuel operations tree values → tree.Contains values := by
    rintro operations tree values ⟨t, hkeeps, rfl, -, -⟩
    exact hkeeps.contains
  exact implements_iff_each hcontains (fun _ _ _ => Contains.unique) (fun _ _ _ _ => step_serves)
    (fun _ _ _ _ h hmiss _ _ hstep _ => step_misses h hmiss hstep) hserves

/-- Two values come back to the tree, one to its root and one below it. -/
def visitors : List (IntrusiveOperation Nat Nat) :=
  [.insert 5 0, .insert 3 1, .clear, .insert 7 0, .remove 7, .insert 4 0, .insert 6 1]

/-- What the visitors meet: only the value 0 is removed, and nothing else is in the tree then. -/
def Welcome (tree : IntrusiveRedBlackTree Nat Nat) : IntrusiveOperation Nat Nat → Prop
  | .insert key value => tree.Allowed (.insert key value) ∧ tree.Reusable 7 (.insert key value)
  | .remove key =>
    tree.find key 7 tree.root = some (some 0) ∧ tree.root = some 0 ∧
      tree.nodes 0 = { color := .black, key }
  | .clear => True

instance Welcome.decidable (tree : IntrusiveRedBlackTree Nat Nat) :
    ∀ operation, Decidable (tree.Welcome operation)
  | .insert _ value =>
    inferInstanceAs (Decidable (tree.inTree value = false ∧
      (tree.root = none → (tree.nodes value).parent = none) ∧
      (tree.root ≠ none → (tree.nodes value).color = .red)))
  | .remove key =>
    inferInstanceAs (Decidable (tree.find key 7 tree.root = some (some 0) ∧ tree.root = some 0 ∧
      tree.nodes 0 = { color := .black, key }))
  | .clear => .isTrue trivial

theorem Welcome.reusable {tree : IntrusiveRedBlackTree Nat Nat} {operation : IntrusiveOperation Nat Nat}
    (h : tree.Welcome operation) : tree.Allowed operation ∧ tree.Reusable 7 operation := by
  cases operation with
  | insert key value => exact h
  | remove key =>
    obtain ⟨hfind, hroot, hnode⟩ := h
    refine ⟨trivial, fun p hp => ?_⟩
    rw [hfind] at hp
    cases hp
    refine ⟨.node .black .nil 0 .nil, ⟨?_, hroot, by decide⟩, [], .black, .nil, .nil, rfl,
      .inr (.inr trivial)⟩
    rw [Owns, hnode]
    exact ⟨rfl, rfl, rfl, rfl, trivial, trivial⟩
  | clear => exact ⟨trivial, trivial⟩

theorem implements_visitors :
    Implements (step 7) ValuesAfter Contains (unused fun _ => 0) (fun _ => none) visitors := by
  have heach : Each (step 7) Welcome (unused fun _ => 0) visitors := by decide
  exact (implements_iff (fun _ => 0) visitors 7 (by decide)
    (heach.mono fun _ _ h => h.reusable.1)).mpr (heach.mono fun _ _ h => h.reusable.2)

/-- A value comes back black to a tree of two others. -/
def returned : List (IntrusiveOperation Nat Nat) :=
  [.insert 0 0, .remove 0, .insert 0 1, .insert 1 2, .insert 2 0]

/-- `insert_fixups` verifies that it is red. -/
theorem not_implements_returned :
    ¬ ∀ (keys : Nat → Nat) (operations : List (IntrusiveOperation Nat Nat)) (fuel : Nat),
      operations.length ≤ fuel → Each (step fuel) Allowed (unused keys) operations →
      Implements (step fuel) ValuesAfter Contains (unused keys) (fun _ => none) operations := by
  intro h
  have hallowed : Each (step 5) Allowed (unused fun _ : Nat => 0) returned := by decide
  obtain ⟨tree, hrun⟩ := (h _ returned 5 (by decide) hallowed).exists_run
  have hnone : (run (step 5) (unused fun _ : Nat => 0) returned).isNone = true := by decide
  rw [hrun] at hnone
  cases hnone

end IntrusiveRedBlackTree

end Literate.AK
