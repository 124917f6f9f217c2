import Literate.AK.RedBlackTree

/-!
# AK: the shape of a red-black tree in memory

`Holds` says that the memory of a `BaseRedBlackTree` is a given tree of addresses.  A
place in that tree is a context; what each operation of the source does there is one
lemma, and nothing else of the development looks at pointers.
-/

namespace Literate.AK

open Foundation List Option

-- the library's trees, also where Mathlib's are in scope
export Foundation (Tree)

namespace Node

variable {P K : Type}

section

variable (node : Node P K) (x : Option P) (side : Side)

@[simp] theorem child_setChild_self : (node.setChild x side).child side = x := by
  cases side <;> rfl

@[simp] theorem child_setChild_other :
    (node.setChild x side).child side.other = node.child side.other := by
  cases side <;> rfl

@[simp] theorem child_setChild_other' :
    (node.setChild x side.other).child side = node.child side := by
  cases side <;> rfl

@[simp] theorem color_setChild : (node.setChild x side).color = node.color := by
  cases side <;> rfl

@[simp] theorem parent_setChild : (node.setChild x side).parent = node.parent := by
  cases side <;> rfl

@[simp] theorem key_setChild : (node.setChild x side).key = node.key := by
  cases side <;> rfl

end

section

variable (node : Node P K) (parent : Option P)

@[simp] theorem child_setParent (side : Side) :
    (node.setParent parent).child side = node.child side := by
  cases side <;> rfl

@[simp] theorem color_setParent : (node.setParent parent).color = node.color := rfl

@[simp] theorem parent_setParent : (node.setParent parent).parent = parent := rfl

end

end Node

/-! ## Trees and contexts in memory -/

section

variable {P K : Type} (nodes : P → Node P K)

/-- The nodes of a tree have its colours and links. -/
def Owns (parent : Option P) : Tree P → Prop
  | .nil => True
  | .node c l p r =>
    (nodes p).color = c ∧ (nodes p).parent = parent ∧ (nodes p).leftChild = l.top ∧
      (nodes p).rightChild = r.top ∧ Owns (some p) l ∧ Owns (some p) r

/-- The nodes of a context have its colours and links, and `hole` in the hole; `root` is
the root, and `outer` above it. -/
def Around (outer root : Option P) : List (Frame P) → Option P → Prop
  | [], hole => root = hole
  | frame :: ctx, hole =>
    (nodes frame.value).color = frame.color ∧
      (nodes frame.value).parent = parentFrom outer ctx ∧
      (nodes frame.value).child frame.side = hole ∧
      (nodes frame.value).child frame.side.other = frame.sibling.top ∧
      Owns nodes (some frame.value) frame.sibling ∧ Around outer root ctx (some frame.value)

end

variable {P K : Type} {nodes nodes' : P → Node P K} {parent outer root : Option P}

theorem owns_nodeOn {side : Side} {c : Color} {near far : Tree P} {p : P} :
    Owns nodes parent (.nodeOn side c near p far) ↔
      (nodes p).color = c ∧ (nodes p).parent = parent ∧ (nodes p).child side = near.top ∧
        (nodes p).child side.other = far.top ∧ Owns nodes (some p) near ∧
        Owns nodes (some p) far := by
  cases side with
  | left => rfl
  | right =>
    simp only [Tree.nodeOn, Owns, Node.child, Side.other]
    tauto

theorem Owns.congr {t : Tree P} (h : ∀ x ∈ t.toList, nodes' x = nodes x)
    (ht : Owns nodes parent t) : Owns nodes' parent t := by
  induction t generalizing parent with
  | nil => trivial
  | node c l p r ihl ihr =>
    obtain ⟨hcolor, hparent, hleft, hright, hl, hr⟩ := ht
    have hp : nodes' p = nodes p := h p (by simp [Tree.toList])
    rw [Owns, hp]
    refine ⟨hcolor, hparent, hleft, hright, ihl (fun x hx => h x ?_) hl,
      ihr (fun x hx => h x ?_) hr⟩
    · simp [Tree.toList, hx]
    · simp [Tree.toList, hx]

theorem Around.congr {ctx : List (Frame P)} {hole : Option P}
    (h : ∀ x ∈ values ctx, nodes' x = nodes x) (hctx : Around nodes outer root ctx hole) :
    Around nodes' outer root ctx hole := by
  induction ctx generalizing hole with
  | nil => exact hctx
  | cons frame ctx ih =>
    obtain ⟨hcolor, hparent, hhole, hsibling, hs, hrest⟩ := hctx
    have hp : nodes' frame.value = nodes frame.value := h _ (by simp [values])
    rw [Around, hp]
    refine ⟨hcolor, hparent, hhole, hsibling, hs.congr fun x hx => h x ?_,
      ih (fun x hx => h x ?_) hrest⟩
    · simp [values, hx]
    · simp [values, hx]

/-- A memory holds at most one tree below a pointer. -/
theorem Owns.unique {t t' : Tree P} (ht : Owns nodes parent t) (ht' : Owns nodes parent t')
    (htop : t.top = t'.top) : t = t' := by
  induction t generalizing parent t' with
  | nil => exact (Tree.top_eq_none.mp htop.symm).symm
  | node c l p r ihl ihr =>
    cases t' with
    | nil => cases htop
    | node c' l' p' r' =>
      obtain rfl := some.inj htop
      obtain ⟨rfl, -, hleft, hright, hl, hr⟩ := ht
      obtain ⟨rfl, -, hleft', hright', hl', hr'⟩ := ht'
      rw [ihl hl hl' (hleft.symm.trans hleft'), ihr hr hr' (hright.symm.trans hright')]

theorem owns_plug {ctx : List (Frame P)} {t : Tree P} :
    Owns nodes outer (plug ctx t) ∧ root = (plug ctx t).top ↔
      Owns nodes (parentFrom outer ctx) t ∧ Around nodes outer root ctx t.top := by
  induction ctx generalizing t with
  | nil => rfl
  | cons frame ctx ih =>
    rw [plug, ih, Frame.plug, owns_nodeOn, Tree.top_nodeOn, Around, parentFrom]
    tauto

namespace BaseRedBlackTree

/-- The memory of a `BaseRedBlackTree` is this tree. -/
structure Holds (tree : BaseRedBlackTree P K) (t : Tree P) : Prop where
  owns : Owns tree.nodes none t
  root : tree.root = t.top
  nodup : t.toList.Nodup

theorem Holds.unique {tree : BaseRedBlackTree P K} {t t' : Tree P} (h : tree.Holds t)
    (h' : tree.Holds t') : t = t' :=
  h.owns.unique h'.owns (h.root.symm.trans h'.root)

theorem holds_plug {tree : BaseRedBlackTree P K} {ctx : List (Frame P)} {t : Tree P} :
    tree.Holds (plug ctx t) ↔ Owns tree.nodes (parentOf ctx) t ∧
      Around tree.nodes none tree.root ctx t.top ∧ t.toList.Nodup ∧ (values ctx).Nodup ∧
      t.toList.Disjoint (values ctx) := by
  constructor
  · rintro ⟨howns, hroot, hnodup⟩
    obtain ⟨ht, hctx⟩ := owns_plug.mp ⟨howns, hroot⟩
    exact ⟨ht, hctx, nodup_plug.mp hnodup⟩
  · rintro ⟨ht, hctx, hnodup⟩
    obtain ⟨howns, hroot⟩ := owns_plug.mpr ⟨ht, hctx⟩
    exact ⟨howns, hroot, nodup_plug.mpr hnodup⟩

/-- Nothing but colours and links has changed, and these in the nodes of a list only. -/
structure Relinked (nodes : List P) (tree tree' : BaseRedBlackTree P K) : Prop where
  size : tree'.size = tree.size
  minimum : tree'.minimum = tree.minimum
  key : ∀ x, (tree'.nodes x).key = (tree.nodes x).key
  outside : ∀ x ∉ nodes, tree'.nodes x = tree.nodes x

theorem Relinked.refl (nodes : List P) (tree : BaseRedBlackTree P K) : Relinked nodes tree tree :=
  ⟨rfl, rfl, fun _ => rfl, fun _ _ => rfl⟩

theorem Relinked.trans {nodes : List P} {tree tree' tree'' : BaseRedBlackTree P K}
    (h : Relinked nodes tree tree') (h' : Relinked nodes tree' tree'') :
    Relinked nodes tree tree'' where
  size := h'.size.trans h.size
  minimum := h'.minimum.trans h.minimum
  key := fun x => (h'.key x).trans (h.key x)
  outside := fun x hx => (h'.outside x hx).trans (h.outside x hx)

theorem Relinked.congr {nodes nodes' : List P} {tree tree' : BaseRedBlackTree P K}
    (h : Relinked nodes tree tree') (hnodes : ∀ x ∈ nodes, x ∈ nodes') :
    Relinked nodes' tree tree' :=
  { h with outside := fun x hx => h.outside x fun hmem => hx (hnodes x hmem) }

/-! ## Single assignments -/

variable [DecidableEq P]

section

variable (tree : BaseRedBlackTree P K) (p : P) (node : Node P K)

@[simp] theorem setNode_nodes_self : (tree.setNode p node).nodes p = node :=
  Function.update_self ..

theorem setNode_nodes_of_ne {x : P} (hx : x ≠ p) : (tree.setNode p node).nodes x = tree.nodes x :=
  Function.update_of_ne hx ..

@[simp] theorem setNode_root : (tree.setNode p node).root = tree.root := rfl

@[simp] theorem setNode_size : (tree.setNode p node).size = tree.size := rfl

@[simp] theorem setNode_minimum : (tree.setNode p node).minimum = tree.minimum := rfl

theorem relinked_setNode {nodes : List P} (hkey : node.key = (tree.nodes p).key) (hp : p ∈ nodes) :
    Relinked nodes tree (tree.setNode p node) where
  size := rfl
  minimum := rfl
  key := by
    intro x
    by_cases hx : x = p
    · rw [hx, setNode_nodes_self, hkey]
    · rw [setNode_nodes_of_ne _ _ _ hx]
  outside := fun x hx => setNode_nodes_of_ne _ _ _ fun h => hx (h ▸ hp)

end

theorem relinked_setColor (tree : BaseRedBlackTree P K) {p : P} (c : Color) {nodes : List P}
    (hp : p ∈ nodes) : Relinked nodes tree (tree.setColor p c) :=
  relinked_setNode tree p _ rfl hp

theorem relinked_setParent (tree : BaseRedBlackTree P K) {p : P} (parent : Option P)
    {nodes : List P} (hp : p ∈ nodes) : Relinked nodes tree (tree.setParent p parent) :=
  relinked_setNode tree p _ rfl hp

theorem relinked_setChild (side : Side) (tree : BaseRedBlackTree P K) {p : P}
    (child : Option P) {nodes : List P} (hp : p ∈ nodes) :
    Relinked nodes tree (tree.setChild side p child) :=
  relinked_setNode tree p _ (Node.key_setChild ..) hp

section

variable (tree : BaseRedBlackTree P K)

theorem relinked_setParentOf {child : Option P}
    (parent : Option P) {nodes : List P} (hchild : ∀ x, child = some x → x ∈ nodes) :
    Relinked nodes tree (tree.setParentOf child parent) := by
  cases child with
  | none => exact Relinked.refl nodes tree
  | some x => exact relinked_setParent tree parent (hchild x rfl)

theorem relinked_replaceChild (old : P)
    (new : Option P) {nodes : List P} (hparent : ∀ x, parent = some x → x ∈ nodes) :
    Relinked nodes tree (tree.replaceChild parent old new) := by
  cases parent with
  | none => exact ⟨rfl, rfl, fun _ => rfl, fun _ _ => rfl⟩
  | some x =>
    rw [replaceChild]
    split_ifs
    · exact relinked_setChild .left tree new (hparent x rfl)
    · exact relinked_setChild .right tree new (hparent x rfl)

@[simp] theorem setParentOf_root (child parent : Option P) :
    (tree.setParentOf child parent).root = tree.root := by
  cases child <;> rfl

end

theorem owns_setParentOf {tree : BaseRedBlackTree P K} {t : Tree P}
    (h : Owns tree.nodes parent t) (hnodup : t.toList.Nodup) (parent' : Option P) :
    Owns (tree.setParentOf t.top parent').nodes parent' t := by
  cases t with
  | nil => trivial
  | node c l x r =>
    obtain ⟨hx, hx', -⟩ := (@Tree.nodup_nodeOn _ .left c l r x).mp hnodup
    obtain ⟨hcolor, -, hleft, hright, hl, hr⟩ := h
    have hnodes : ∀ y, y ≠ x →
        (tree.setParentOf (Foundation.Tree.node c l x r).top parent').nodes y = tree.nodes y :=
      fun y hy => setNode_nodes_of_ne _ _ _ hy
    have hself : (tree.setParentOf (Foundation.Tree.node c l x r).top parent').nodes x =
        (tree.nodes x).setParent parent' := setNode_nodes_self _ _ _
    rw [Owns, hself]
    refine ⟨hcolor, rfl, hleft, hright, hl.congr fun y hy => hnodes y ?_,
      hr.congr fun y hy => hnodes y ?_⟩
    · rintro rfl
      exact hx hy
    · rintro rfl
      exact hx' hy

theorem around_setChild {tree : BaseRedBlackTree P K} {frame : Frame P} {ctx : List (Frame P)}
    {hole : Option P} (h : Around tree.nodes outer root (frame :: ctx) hole)
    (hnodup : (values (frame :: ctx)).Nodup) (new : Option P) :
    Around (tree.setChild frame.side frame.value new).nodes outer root (frame :: ctx) new := by
  obtain ⟨hcolor, hparent, -, hsibling, hs, hrest⟩ := h
  obtain ⟨hp, -⟩ := nodup_cons.mp hnodup
  have hself : (tree.setChild frame.side frame.value new).nodes frame.value =
      (tree.nodes frame.value).setChild new frame.side := setNode_nodes_self _ _ _
  have hother : ∀ y ∈ frame.sibling.toList ++ values ctx,
      (tree.setChild frame.side frame.value new).nodes y = tree.nodes y := by
    intro y hy
    refine setNode_nodes_of_ne _ _ _ ?_
    rintro rfl
    exact hp hy
  rw [Around, hself]
  refine ⟨by simpa using hcolor, by simpa using hparent, by simp, by simpa using hsibling,
    hs.congr fun y hy => hother y (mem_append_left _ hy),
    hrest.congr fun y hy => hother y (mem_append_right _ hy)⟩

theorem around_replaceChild {tree : BaseRedBlackTree P K} {ctx : List (Frame P)} {old : P}
    (h : Around tree.nodes none tree.root ctx (some old)) (hnodup : (values ctx).Nodup)
    (hold : old ∉ values ctx) (new : Option P) :
    Around (tree.replaceChild (parentOf ctx) old new).nodes none
      (tree.replaceChild (parentOf ctx) old new).root ctx new := by
  cases ctx with
  | nil => rfl
  | cons frame ctx =>
    obtain ⟨-, -, hhole, hsibling, -⟩ := id h
    have hkey : tree.replaceChild (some frame.value) old new =
        tree.setChild frame.side frame.value new := by
      cases hside : frame.side with
      | left =>
        rw [hside] at hhole
        exact if_pos hhole
      | right =>
        rw [hside] at hsibling
        refine if_neg fun hleft => hold ?_
        have hmem : old ∈ frame.sibling.toList := Tree.top_mem (hsibling.symm.trans hleft)
        simp [values, hmem]
    rw [parentOf, parentFrom, hkey]
    exact around_setChild h hnodup new

/-! ## The operations at a place -/

variable {tree : BaseRedBlackTree P K} {ctx : List (Frame P)}

omit [DecidableEq P] in
theorem Holds.at_node {side : Side} {c : Color} {near far : Tree P} {p : P}
    (h : tree.Holds (plug ctx (.nodeOn side c near p far))) :
    (tree.nodes p).color = c ∧ (tree.nodes p).parent = parentOf ctx ∧
      (tree.nodes p).child side = near.top ∧ (tree.nodes p).child side.other = far.top := by
  obtain ⟨hcolor, hparent, hnear, hfar, -⟩ := owns_nodeOn.mp (holds_plug.mp h).1
  exact ⟨hcolor, hparent, hnear, hfar⟩

omit [DecidableEq P] in
theorem Holds.at_frame {frame : Frame P} {t : Tree P} (h : tree.Holds (plug (frame :: ctx) t)) :
    (tree.nodes frame.value).color = frame.color ∧
      (tree.nodes frame.value).parent = parentOf ctx ∧
      (tree.nodes frame.value).child frame.side = t.top ∧
      (tree.nodes frame.value).child frame.side.other = frame.sibling.top :=
  Holds.at_node h

omit [DecidableEq P] in
/-- The node at a place has the node above the place as its parent. -/
theorem Holds.parent_top {t : Tree P} {p : P} (h : tree.Holds (plug ctx t)) (hp : t.top = some p) :
    (tree.nodes p).parent = parentOf ctx := by
  cases t with
  | nil => cases hp
  | node c l q r =>
    obtain rfl := some.inj hp
    exact (holds_plug.mp h).1.2.1

omit [DecidableEq P] in
/-- A node that is no leaf of its parent's other side finds its own side. -/
theorem Holds.side_of_frame {frame : Frame P} {t : Tree P} {p : P}
    (h : tree.Holds (plug (frame :: ctx) t)) (hp : t.top = some p) (side : Side) :
    (tree.nodes frame.value).child side = some p ↔ frame.side = side := by
  obtain ⟨-, -, hside, hother⟩ := h.at_frame
  obtain ⟨-, -, -, hctx, hdisjoint⟩ := holds_plug.mp h
  constructor
  · intro hchild
    by_contra hne
    rw [Side.eq_other_of_ne (Ne.symm hne), hother] at hchild
    exact hdisjoint (Tree.top_mem hp) (by simp [values, Tree.top_mem hchild])
  · rintro rfl
    rw [hside, hp]

omit [DecidableEq P] in
theorem Holds.isRed {t : Tree P} (h : tree.Holds (plug ctx t)) :
    tree.isRed t.top = decide (t.color = .red) := by
  cases t with
  | nil => rfl
  | node c l p r =>
    obtain ⟨hcolor, -⟩ := (holds_plug.mp h).1
    rw [Tree.top, Tree.color, BaseRedBlackTree.isRed, hcolor]

theorem Holds.setColor {t : Tree P} {p : P} (h : tree.Holds (plug ctx t)) (hp : t.top = some p)
    (c : Color) : (tree.setColor p c).Holds (plug ctx (t.paint c)) := by
  cases t with
  | nil => cases hp
  | node c' l q r =>
    obtain rfl := some.inj hp
    obtain ⟨⟨-, hparent, hleft, hright, hl, hr⟩, hctx, hnodup, hctxNodup, hdisjoint⟩ :=
      holds_plug.mp h
    obtain ⟨hql, hqr, -⟩ := (@Tree.nodup_nodeOn _ .left c' l r q).mp hnodup
    have hself : (tree.setColor q c).nodes q = (tree.nodes q).setColor c :=
      setNode_nodes_self _ _ _
    have hother : ∀ y, y ≠ q → (tree.setColor q c).nodes y = tree.nodes y :=
      fun y hy => setNode_nodes_of_ne _ _ _ hy
    refine holds_plug.mpr ⟨?_, hctx.congr fun y hy => hother y ?_, hnodup, hctxNodup, hdisjoint⟩
    · rw [Tree.paint, Owns, hself]
      refine ⟨rfl, hparent, hleft, hright, hl.congr fun y hy => hother y ?_,
        hr.congr fun y hy => hother y ?_⟩
      · rintro rfl
        exact hql hy
      · rintro rfl
        exact hqr hy
    · rintro rfl
      exact hdisjoint (by simp [Tree.toList]) hy

theorem Holds.rotate {side : Side} {c c' : Color} {a b d : Tree P} {p q : P}
    (h : tree.Holds (plug ctx (.nodeOn side c a p (.nodeOn side c' b q d)))) :
    ∃ tree', rotate side tree p = some tree' ∧
      tree'.Holds (plug ctx (.nodeOn side c' (.nodeOn side c a p b) q d)) ∧
      Relinked (plug ctx (.nodeOn side c a p (.nodeOn side c' b q d))).toList tree tree' := by
  have hmem : ∀ x, x ∈ (plug ctx (.nodeOn side c a p (.nodeOn side c' b q d))).toList ↔
      (x = p ∨ x ∈ a.toList ∨ x = q ∨ x ∈ b.toList ∨ x ∈ d.toList) ∨ x ∈ values ctx := by
    intro x
    simp only [toList_plug, mem_append, mem_values, Tree.mem_nodeOn]
    tauto
  obtain ⟨howns, hctx, hnodup, hctxNodup, hdisjoint⟩ := holds_plug.mp h
  obtain ⟨hpcolor, hpparent, hpnear, hpfar, ha, hq⟩ := owns_nodeOn.mp howns
  obtain ⟨hqcolor, -, hqnear, hqfar, hb, hd⟩ := owns_nodeOn.mp hq
  obtain ⟨hpa, hpq, haNodup, hqNodup, haq⟩ := Tree.nodup_nodeOn.mp hnodup
  obtain ⟨hqb, hqd, hbNodup, hdNodup, hbd⟩ := Tree.nodup_nodeOn.mp hqNodup
  simp only [Tree.mem_nodeOn, not_or] at hpq
  obtain ⟨hpq, hpb, hpd⟩ := hpq
  have hqa : q ∉ a.toList := fun hx => haq hx (Tree.mem_nodeOn.mpr (.inl rfl))
  have hab : a.toList.Disjoint b.toList := fun x hx hx' =>
    haq hx (Tree.mem_nodeOn.mpr (.inr (.inl hx')))
  simp only [Tree.top_nodeOn] at hpfar
  have hvalues : ∀ x ∈ values ctx, x ≠ p ∧ x ≠ q ∧ x ∉ b.toList := by
    intro x hx
    have hx' : x ∉ (Tree.nodeOn side c a p (.nodeOn side c' b q d)).toList :=
      fun hx' => hdisjoint hx' hx
    simp only [Tree.mem_nodeOn, not_or] at hx'
    exact ⟨hx'.1, hx'.2.2.1, hx'.2.2.2.1⟩
  -- the memory before the last assignment, which is to the context
  let tree₁ := tree.setChild side.other p b.top
  let tree₂ := tree₁.setParentOf b.top (some p)
  let tree₃ := tree₂.setChild side q (some p)
  let tree₄ := tree₃.setParent p (some q)
  let tree₅ := tree₄.setParent q (parentOf ctx)
  have hrotate : BaseRedBlackTree.rotate side tree p =
      some (tree₅.replaceChild (parentOf ctx) p (some q)) := by
    simp only [BaseRedBlackTree.rotate, hpfar, hpparent, hqnear, tree₅, tree₄, tree₃, tree₂, tree₁]
  have hb₂ : ∀ x, x ∉ b.toList → tree₂.nodes x = tree₁.nodes x := by
    intro x hx
    cases b with
    | nil => rfl
    | node cb bl y br =>
      refine setNode_nodes_of_ne _ _ _ ?_
      rintro rfl
      exact hx (by simp [Tree.toList])
  have hother : ∀ x, x ≠ p → x ≠ q → tree₅.nodes x = tree₂.nodes x := by
    intro x hxp hxq
    exact (setNode_nodes_of_ne _ _ _ hxq).trans ((setNode_nodes_of_ne _ _ _ hxp).trans
      (setNode_nodes_of_ne _ _ _ hxq))
  have hother₁ : ∀ x, x ≠ p → tree₁.nodes x = tree.nodes x :=
    fun x hx => setNode_nodes_of_ne _ _ _ hx
  have hq₅ : tree₅.nodes q =
      ((tree.nodes q).setChild (some p) side).setParent (parentOf ctx) := by
    have h₄ : tree₄.nodes q = (tree.nodes q).setChild (some p) side := by
      rw [show tree₄.nodes q = tree₃.nodes q from setNode_nodes_of_ne _ _ _ (Ne.symm hpq),
        show tree₃.nodes q = (tree₂.nodes q).setChild (some p) side from
          setNode_nodes_self _ _ _,
        hb₂ q hqb, hother₁ q (Ne.symm hpq)]
    rw [show tree₅.nodes q = (tree₄.nodes q).setParent (parentOf ctx) from
      setNode_nodes_self _ _ _, h₄]
  have hp₅ : tree₅.nodes p =
      ((tree.nodes p).setChild b.top side.other).setParent (some q) := by
    have h₃ : tree₃.nodes p = (tree.nodes p).setChild b.top side.other := by
      rw [show tree₃.nodes p = tree₂.nodes p from setNode_nodes_of_ne _ _ _ hpq, hb₂ p hpb]
      exact setNode_nodes_self _ _ _
    rw [show tree₅.nodes p = tree₄.nodes p from setNode_nodes_of_ne _ _ _ hpq,
      show tree₄.nodes p = (tree₃.nodes p).setParent (some q) from
        setNode_nodes_self _ _ _, h₃]
  have hctx₅ : Around tree₅.nodes none tree₅.root ctx (some p) := by
    have hroot : tree₅.root = tree.root := by
      simp only [tree₅, tree₄, tree₃, tree₂, tree₁, BaseRedBlackTree.setParent,
        BaseRedBlackTree.setChild, setNode_root, setParentOf_root]
    rw [hroot]
    rw [Tree.top_nodeOn] at hctx
    refine hctx.congr fun x hx => ?_
    obtain ⟨hxp, hxq, hxb⟩ := hvalues x hx
    rw [hother x hxp hxq, hb₂ x hxb, hother₁ x hxp]
  have hpctx : p ∉ values ctx := fun hx => (hvalues p hx).1 rfl
  have hkeep : ∀ x, x ∉ values ctx →
      (tree₅.replaceChild (parentOf ctx) p (some q)).nodes x = tree₅.nodes x := by
    intro x hx
    refine (relinked_replaceChild tree₅ p (some q) ?_).outside x hx
    intro y hy
    cases ctx with
    | nil => cases hy
    | cons frame ctx =>
      obtain rfl := some.inj hy
      simp [values]
  have hlist := Tree.toList_rotate side c c' c c' a b d p q
  have hkeep' : ∀ x ∈ (Tree.nodeOn side c' (.nodeOn side c a p b) q d).toList,
      (tree₅.replaceChild (parentOf ctx) p (some q)).nodes x = tree₅.nodes x :=
    fun x hx => hkeep x (hdisjoint (hlist ▸ hx))
  have howns₅ : Owns tree₅.nodes (parentOf ctx) (.nodeOn side c' (.nodeOn side c a p b) q d) := by
    have ha₅ : Owns tree₅.nodes (some p) a := by
      refine ha.congr fun x hx => ?_
      have hxp : x ≠ p := fun hxp => hpa (hxp ▸ hx)
      rw [hother x hxp fun hxq => hqa (hxq ▸ hx), hb₂ x (hab hx), hother₁ x hxp]
    have hb₅ : Owns tree₅.nodes (some p) b := by
      have hb₁ : Owns tree₁.nodes (some q) b :=
        hb.congr fun x hx => hother₁ x fun hxp => hpb (hxp ▸ hx)
      refine (owns_setParentOf hb₁ hbNodup (some p)).congr fun x hx => ?_
      exact hother x (fun hxp => hpb (hxp ▸ hx)) fun hxq => hqb (hxq ▸ hx)
    have hd₅ : Owns tree₅.nodes (some q) d := by
      refine hd.congr fun x hx => ?_
      have hxp : x ≠ p := fun hxp => hpd (hxp ▸ hx)
      rw [hother x hxp fun hxq => hqd (hxq ▸ hx), hb₂ x fun hx' => hbd hx' hx, hother₁ x hxp]
    simp only [owns_nodeOn, hq₅, hp₅]
    simp [hqcolor, hpcolor, hpnear, hqfar, ha₅, hb₅, hd₅]
  refine ⟨_, hrotate, holds_plug.mpr ⟨howns₅.congr hkeep', ?_, ?_, hctxNodup, ?_⟩, ?_⟩
  · rw [Tree.top_nodeOn]
    exact around_replaceChild hctx₅ hctxNodup hpctx (some q)
  · rwa [hlist]
  · rwa [hlist]
  · have hp := (hmem p).mpr (.inl (.inl rfl))
    have hq := (hmem q).mpr (.inl (.inr (.inr (.inl rfl))))
    refine (relinked_setChild _ tree _ hp).trans
      ((relinked_setParentOf tree₁ _ fun x hx => ?_).trans
      ((relinked_setChild _ tree₂ _ hq).trans
      ((relinked_setParent tree₃ _ hp).trans
      ((relinked_setParent tree₄ _ hq).trans
      (relinked_replaceChild tree₅ _ _ fun x hx => ?_)))))
    · exact (hmem x).mpr (.inl (.inr (.inr (.inr (.inl (Tree.top_mem hx))))))
    · cases ctx with
      | nil => cases hx
      | cons frame ctx =>
        obtain rfl := some.inj hx
        exact (hmem _).mpr (.inr (by simp [values]))

end BaseRedBlackTree

end Literate.AK
