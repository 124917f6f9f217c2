import Literate.AK.RedBlackShape
import Mathlib.Data.List.Pairwise
import Mathlib.Data.List.Induction
import Mathlib.Order.Nat

/-!
# AK: insertion into a red-black tree

`insert` keeps the red-black invariants.  The loop of `insert_fixups` stands at a place
of the tree: what is below is in order, and what is around would take a black tree
there.
-/

namespace Literate.AK

open Foundation
open Foundation.Tree (toList_nodeOn_congr top_nodeOn nodeOn_other proper_red toList proper_nil)

namespace BaseRedBlackTree

variable {P K : Type} [DecidableEq P]

/-! ## The fixups -/

section

variable {tree : BaseRedBlackTree P K} {ctx : List (Frame P)}

/-- The last case of the loop: the parent is rotated above the grandparent. -/
theorem raise_spec {side : Side} {c c' : Color} {t sibling uncle : Tree P} {node parent : P}
    {grandParent : P} (hnode : t.top = some node) (h : tree.Holds (plug ctx
      (.nodeOn side c (.nodeOn side c' t parent sibling) grandParent uncle))) :
    ∃ tree', insertFixupsStep.raise side grandParent tree node = some (tree', node) ∧
      tree'.Holds (plug ctx
        (.nodeOn side .black t parent (.nodeOn side .red sibling grandParent uncle))) ∧
      Relinked (plug ctx
        (.nodeOn side c (.nodeOn side c' t parent sibling) grandParent uncle)).toList
        tree tree' := by
  have hparent : (tree.nodes node).parent = some parent :=
    @Holds.parent_top _ _ tree (⟨side, c', parent, sibling⟩ :: ⟨side, c, grandParent, uncle⟩ :: ctx)
      t node h hnode
  have hlist : ∀ x y, (plug ctx
      (.nodeOn side x (.nodeOn side y t parent sibling) grandParent uncle)).toList =
      (plug ctx
        (.nodeOn side c (.nodeOn side c' t parent sibling) grandParent uncle)).toList := by
    intro x y
    simp only [toList_plug]
    congr 2
    exact toList_nodeOn_congr side x c grandParent
      (toList_nodeOn_congr side y c' parent rfl rfl) rfl
  have hmem : ∀ x, x = parent ∨ x = grandParent → x ∈ (plug ctx
      (.nodeOn side c (.nodeOn side c' t parent sibling) grandParent uncle)).toList := by
    intro x hx
    simp only [toList_plug, List.mem_append, Tree.mem_nodeOn]
    tauto
  have h₁ : (tree.setColor parent .black).Holds (plug ctx
      (.nodeOn side c (.nodeOn side .black t parent sibling) grandParent uncle)) := by
    have hcolor := @Holds.setColor _ _ _ tree (⟨side, c, grandParent, uncle⟩ :: ctx)
      (.nodeOn side c' t parent sibling) parent h (top_nodeOn ..) .black
    rwa [Tree.paint_nodeOn] at hcolor
  have h₂ := h₁.setColor (top_nodeOn ..) .red
  rw [Tree.paint_nodeOn, ← nodeOn_other, ← nodeOn_other side .black] at h₂
  obtain ⟨tree', hrotate, h', hrelinked⟩ := h₂.rotate
  refine ⟨tree', ?_, ?_, ?_⟩
  · rw [insertFixupsStep.raise, hparent]
    simp [hrotate]
  · rwa [nodeOn_other, nodeOn_other] at h'
  · simp only [nodeOn_other, hlist] at hrelinked
    exact (relinked_setColor tree .black (hmem parent (.inl rfl))).trans
      ((relinked_setColor _ .red (hmem grandParent (.inr rfl))).trans hrelinked)

variable {side fside : Side} {c : Color} {t sibling uncle : Tree P} {node parent grandParent : P}

/-- The node is turned to the outside when it is not there, and then rotated up.  The
tree at the place has a black root, the parent or the node. -/
theorem rotateUp_spec (hnode : t.top = some node) (hred : t.color = .red)
    (h : tree.Holds (plug (⟨fside, .red, parent, sibling⟩ :: ⟨side, c, grandParent, uncle⟩ :: ctx)
      t)) :
    ∃ tree' node' t' parent' s, insertFixupsStep.rotateUp side node parent grandParent tree =
        some (tree', node') ∧ t'.top = some node' ∧
      tree'.Holds (plug ctx
        (.nodeOn side .black t' parent' (.nodeOn side .red s grandParent uncle))) ∧
      Relinked (plug (⟨fside, .red, parent, sibling⟩ :: ⟨side, c, grandParent, uncle⟩ :: ctx)
        t).toList tree tree' ∧
      (fside = side → t' = t) ∧
      (Tree.nodeOn fside .red t parent sibling).toList =
        (Tree.nodeOn side .black t' parent' s).toList ∧
      ∀ n, t.Proper n → sibling.color = .black → sibling.Proper n → t'.Proper n ∧
        s.color = .black ∧ s.Proper n := by
  have hside := h.side_of_frame hnode side.other
  rw [insertFixupsStep.rotateUp]
  by_cases hf : fside = side
  · obtain rfl := hf
    rw [if_neg fun hchild => Side.other_ne fside (hside.mp hchild).symm]
    obtain ⟨tree', hraise, h', hrelinked⟩ := raise_spec hnode h
    exact ⟨tree', node, t, parent, sibling, hraise, hnode, h', hrelinked, fun _ => rfl,
      toList_nodeOn_congr _ _ _ _ rfl rfl, fun n ht hblack hs => ⟨ht, hblack, hs⟩⟩
  · obtain rfl := Side.eq_other_of_ne hf
    rw [if_pos (hside.mpr rfl)]
    -- the node is on the inside: its near subtree goes to the parent
    obtain ⟨ct, l, x, r, rfl⟩ : ∃ ct l x r, t = .node ct l x r := by
      cases t with
      | nil => cases hnode
      | node ct l x r => exact ⟨ct, l, x, r, rfl⟩
    obtain rfl : ct = .red := hred
    obtain rfl : x = node := Option.some.inj hnode
    obtain ⟨a, b, hab⟩ := Tree.exists_nodeOn side .red l x r
    rw [hab] at h ⊢
    have h₁ : tree.Holds (plug (⟨side, c, grandParent, uncle⟩ :: ctx)
        (.nodeOn side .red sibling parent (.nodeOn side .red a x b))) := by
      rw [plug, Frame.plug, nodeOn_other] at h
      exact h
    obtain ⟨tree₁, hrotate, h₂, hrelinked₁⟩ := h₁.rotate
    obtain ⟨tree', hraise, h', hrelinked₂⟩ := raise_spec (top_nodeOn ..) h₂
    refine ⟨tree', parent, .nodeOn side .red sibling parent a, x, b, ?_, top_nodeOn ..,
      h', ?_, fun heq => absurd heq (Side.other_ne side), ?_, ?_⟩
    · rw [hrotate, Option.bind_some, hraise]
    · have hlist : (plug (⟨side.other, .red, parent, sibling⟩ ::
          ⟨side, c, grandParent, uncle⟩ :: ctx) (.nodeOn side .red a x b)).toList =
          (plug (⟨side, c, grandParent, uncle⟩ :: ctx)
            (.nodeOn side .red sibling parent (.nodeOn side .red a x b))).toList := by
        rw [plug, Frame.plug, nodeOn_other]
      have hlist' : (plug (⟨side, c, grandParent, uncle⟩ :: ctx)
          (.nodeOn side .red (.nodeOn side .red sibling parent a) x b)).toList =
          (plug (⟨side, c, grandParent, uncle⟩ :: ctx)
            (.nodeOn side .red sibling parent (.nodeOn side .red a x b))).toList := by
        simp only [toList_plug, Tree.toList_rotate side .red .red .red .red]
      rw [hlist]
      refine hrelinked₁.trans ?_
      rw [← hlist']
      exact hrelinked₂
    · rw [nodeOn_other]
      exact (Tree.toList_rotate side .red .black .red .red sibling a b parent x).symm
    · intro n ht hblack hs
      obtain ⟨⟨ha, hb⟩, ha', hb'⟩ := proper_red.mp ht
      exact ⟨proper_red.mpr ⟨⟨hblack, ha⟩, hs, ha'⟩, hb, hb'⟩

/-- The case of a red uncle: the three change colours. -/
theorem recolor_spec (huncle : uncle.color = .red)
    (h : tree.Holds (plug (⟨fside, .red, parent, sibling⟩ :: ⟨side, c, grandParent, uncle⟩ :: ctx)
      t)) :
    ∃ tree', insertFixupsStep side tree node parent grandParent = some (tree', grandParent) ∧
      tree'.Holds (plug ctx (.nodeOn side .red (.nodeOn fside .black t parent sibling) grandParent
        (uncle.paint .black))) ∧
      Relinked (plug (⟨fside, .red, parent, sibling⟩ :: ⟨side, c, grandParent, uncle⟩ :: ctx)
        t).toList tree tree' := by
  obtain ⟨x, hx⟩ : ∃ x, uncle.top = some x := by
    cases uncle with
    | nil => cases huncle
    | node cu l x r => exact ⟨x, rfl⟩
  have hgrand := (@Holds.at_frame _ _ tree ctx ⟨side, c, grandParent, uncle⟩ _ h).2.2.2
  have hred : (tree.nodes x).color = .red := by
    have hsibling := @plug_sibling _ side c grandParent uncle
      (.nodeOn fside .red t parent sibling) ctx
    have hisRed := @Holds.isRed _ _ tree
      (⟨side.other, c, grandParent, .nodeOn fside .red t parent sibling⟩ :: ctx) uncle
      (hsibling ▸ h)
    rw [hx, huncle] at hisRed
    simpa [BaseRedBlackTree.isRed] using hisRed
  have hmem : ∀ y, y = parent ∨ y = grandParent ∨ y = x →
      y ∈ (plug (⟨fside, .red, parent, sibling⟩ :: ⟨side, c, grandParent, uncle⟩ :: ctx)
        t).toList := by
    intro y hy
    rw [toList_plug, List.mem_append, List.mem_append, or_left_comm, ← mem_values]
    have hxu : x ∈ uncle.toList := Tree.top_mem hx
    rcases hy with rfl | rfl | rfl <;> simp [values, hxu]
  have h₁ : (tree.setColor parent .black).Holds
      (plug (⟨side, c, grandParent, uncle⟩ :: ctx) (.nodeOn fside .black t parent sibling)) := by
    have hcolor := @Holds.setColor _ _ _ tree (⟨side, c, grandParent, uncle⟩ :: ctx)
      (.nodeOn fside .red t parent sibling) parent h (top_nodeOn ..) .black
    rwa [Tree.paint_nodeOn] at hcolor
  have h₂ : ((tree.setColor parent .black).setColor x .black).Holds
      (plug (⟨side, c, grandParent, uncle.paint .black⟩ :: ctx)
        (.nodeOn fside .black t parent sibling)) := by
    rw [plug_sibling] at h₁ ⊢
    exact h₁.setColor hx .black
  have h₃ := @Holds.setColor _ _ _ _ ctx _ grandParent h₂ (top_nodeOn ..) .red
  rw [Frame.plug, Tree.paint_nodeOn] at h₃
  refine ⟨_, ?_, h₃, ?_⟩
  · rw [insertFixupsStep]
    simp only [hgrand, hx, if_pos hred]
  · exact (relinked_setColor tree .black (hmem parent (.inl rfl))).trans
      ((relinked_setColor _ .black (hmem x (.inr (.inr rfl)))).trans
        (relinked_setColor _ .red (hmem grandParent (.inr (.inl rfl)))))

theorem rotateUp_of_black (huncle : uncle.color = .black)
    (h : tree.Holds (plug (⟨fside, .red, parent, sibling⟩ :: ⟨side, c, grandParent, uncle⟩ :: ctx)
      t)) :
    insertFixupsStep side tree node parent grandParent =
      insertFixupsStep.rotateUp side node parent grandParent tree := by
  have hgrand := (@Holds.at_frame _ _ tree ctx ⟨side, c, grandParent, uncle⟩ _ h).2.2.2
  rw [insertFixupsStep]
  cases uncle with
  | nil => simp only [hgrand, Tree.top]
  | node cu l x r =>
    have hsibling := @plug_sibling _ side c grandParent (.node cu l x r)
      (.nodeOn fside .red t parent sibling) ctx
    have hcolor := (@Holds.at_node _ _ tree
      (⟨side.other, c, grandParent, .nodeOn fside .red t parent sibling⟩ :: ctx) .left cu l r x
      (hsibling ▸ h)).1
    have hblack : ¬ (tree.nodes x).color = .red := by
      rw [hcolor, show cu = .black from huncle]
      decide
    simp only [hgrand, Tree.top, if_neg hblack]

end

variable {tree : BaseRedBlackTree P K} {ctx : List (Frame P)} {frame : Frame P} {t : Tree P}
  {node : P}

theorem insertFixupsLoop_of_black (h : tree.Holds (plug (frame :: ctx) t))
    (hnode : t.top = some node) (hblack : frame.color = .black) (fuel : Nat) :
    insertFixupsLoop (fuel + 1) tree node = some tree := by
  have hcolor : ¬ (tree.nodes frame.value).color = .red := by
    rw [h.at_frame.1, hblack]
    decide
  simp only [insertFixupsLoop, h.parent_top hnode, parentOf, parentFrom, if_neg hcolor]

theorem insertFixupsLoop_black_spec {n : Nat} (h : tree.Holds (plug (frame :: ctx) t))
    (hnode : t.top = some node) (hblack : frame.color = .black) (ht : t.Proper n)
    (hfits : Fits (frame :: ctx) .black n) (fuel : Nat) :
    ∃ tree' t', insertFixupsLoop (fuel + 1) tree node = some tree' ∧ tree'.Holds t' ∧
      (t'.paint .black).RedBlack ∧ t'.toList = (plug (frame :: ctx) t).toList ∧
      Relinked (plug (frame :: ctx) t).toList tree tree' ∧
      (Leftmost (frame :: ctx) → t'.first = (plug (frame :: ctx) t).first) := by
  have hfits' : Fits (frame :: ctx) t.color n :=
    ⟨fun hred => Color.noConfusion (hblack.symm.trans hred), hfits.2⟩
  exact ⟨tree, _, insertFixupsLoop_of_black h hnode hblack fuel, h,
    (redBlack_plug.mpr ⟨n, ht, hfits'⟩).paint, rfl, Relinked.refl _ _, fun _ => rfl⟩

/-- What the loop makes of a tree that is in order but for a red node under a red
one. -/
theorem insertFixupsLoop_spec : ∀ (ctx : List (Frame P)) {tree : BaseRedBlackTree P K}
    {t : Tree P} {node : P} {n : Nat}, tree.Holds (plug ctx t) → t.top = some node →
    t.color = .red → t.Proper n → Fits ctx .black n → ∀ fuel, ctx.length < fuel →
    ∃ tree' t', insertFixupsLoop fuel tree node = some tree' ∧ tree'.Holds t' ∧
      (t'.paint .black).RedBlack ∧ t'.toList = (plug ctx t).toList ∧
      Relinked (plug ctx t).toList tree tree' ∧
      (Leftmost ctx → t'.first = (plug ctx t).first) := by
  intro ctx
  induction ctx using List.twoStepInduction with
  | nil =>
    intro tree t node n h hnode _ ht _ fuel hfuel
    obtain ⟨fuel, rfl⟩ := Nat.exists_eq_succ_of_ne_zero (show fuel ≠ 0 by omega)
    refine ⟨tree, t, ?_, h, Tree.redBlack_paint ht, rfl, Relinked.refl _ _, fun _ => rfl⟩
    simp only [insertFixupsLoop, @Holds.parent_top _ _ tree [] t node h hnode, parentOf, parentFrom]
  | singleton frame =>
    intro tree t node n h hnode _ ht hfits fuel hfuel
    obtain ⟨fuel, rfl⟩ := Nat.exists_eq_succ_of_ne_zero (show fuel ≠ 0 by omega)
    obtain ⟨fside, color, parent, sibling⟩ := frame
    cases color with
    | black => exact insertFixupsLoop_black_spec h hnode rfl ht hfits fuel
    | red => exact absurd hfits.2.2 (by simp [Fits])
  | cons_cons frame frame' ctx ih _ =>
    intro tree t node n h hnode hred ht hfits fuel hfuel
    obtain ⟨fuel, rfl⟩ := Nat.exists_eq_succ_of_ne_zero (show fuel ≠ 0 by omega)
    obtain ⟨fside, color, parent, sibling⟩ := frame
    obtain ⟨side, c, grandParent, uncle⟩ := frame'
    cases color with
    | black => exact insertFixupsLoop_black_spec h hnode rfl ht hfits fuel
    | red =>
      obtain ⟨hsibling, hsiblingProper, hgrandRed, huncleProper, houter⟩ := hfits
      replace hsibling : sibling.color = .black := (hsibling rfl).2
      obtain rfl : c = .black := Color.eq_black_of_ne_red fun hc => by cases (hgrandRed hc).1
      have hparent := h.at_frame
      have hside : (if (tree.nodes grandParent).rightChild = some parent then Side.right
          else Side.left) = side := by
        have hright := @Holds.side_of_frame _ _ tree ctx ⟨side, .black, grandParent, uncle⟩
          (.nodeOn fside .red t parent sibling) parent h (top_nodeOn ..) .right
        simp only [Node.child] at hright
        cases side <;> simp [hright]
      have hloop : insertFixupsLoop (fuel + 1) tree node =
          (insertFixupsStep side tree node parent grandParent).bind fun next =>
            insertFixupsLoop fuel next.1 next.2 := by
        simp only [insertFixupsLoop, h.parent_top hnode, parentOf, parentFrom, hparent.1,
          hparent.2.1, if_true, hside]
      cases huncle : uncle.color with
      | red =>
        obtain ⟨tree₁, hstep, h₁, hrelinked₁⟩ := @recolor_spec _ _ _ tree ctx side fside .black t
          sibling uncle node parent grandParent huncle h
        have hproper : (Tree.nodeOn side .red (.nodeOn fside .black t parent sibling) grandParent
            (uncle.paint .black)).Proper (n + 1) :=
          proper_red.mpr ⟨⟨Tree.color_nodeOn .., Tree.color_paint_black uncle⟩,
            Tree.proper_black.mpr ⟨ht, hsiblingProper⟩, huncleProper.paint_of_red huncle⟩
        obtain ⟨tree', t', hrest, h', hredBlack, hlist, hrelinked₂, hfirst⟩ :=
          ih h₁ (top_nodeOn ..) (Tree.color_nodeOn ..) hproper
            houter fuel (by simp only [List.length_cons] at hfuel; omega)
        have hlist' : (plug ctx (.nodeOn side .red (.nodeOn fside .black t parent sibling)
            grandParent (uncle.paint .black))).toList =
            (plug (⟨fside, .red, parent, sibling⟩ :: ⟨side, .black, grandParent, uncle⟩ :: ctx)
              t).toList := by
          simp only [plug, toList_plug]
          congr 2
          exact toList_nodeOn_congr side _ _ _
            (toList_nodeOn_congr fside _ _ _ rfl rfl) (Tree.toList_paint ..)
        refine ⟨tree', t', ?_, h', hredBlack, hlist.trans hlist', ?_, fun hleft => ?_⟩
        · rw [hloop, hstep]
          exact hrest
        · rw [hlist'] at hrelinked₂
          exact hrelinked₁.trans hrelinked₂
        · obtain ⟨rfl, rfl, hctx⟩ : fside = .left ∧ side = .left ∧ Leftmost ctx := by
            simpa [Leftmost] using hleft
          have hne : t ≠ .nil := fun hnil => by rw [hnil] at hnode; cases hnode
          rw [hfirst hctx, first_plug hctx (Tree.nodeOn_ne_nil _ _ _ _ _), first_plug hleft hne]
          exact (Tree.first_node (Tree.nodeOn_ne_nil _ _ _ _ _) _ _ _).trans
            (Tree.first_node hne _ _ _)
      | black =>
        obtain ⟨tree', node', t', parent', s, hstep, hnode', h', hrelinked, houtside, hlist,
          hproper⟩ := @rotateUp_spec _ _ _ tree ctx side fside .black t sibling uncle node parent
            grandParent hnode hred h
        obtain ⟨ht', hs, hs'⟩ := hproper n ht hsibling hsiblingProper
        obtain ⟨fuel, rfl⟩ := Nat.exists_eq_succ_of_ne_zero
          (show fuel ≠ 0 by simp only [List.length_cons] at hfuel; omega)
        have hexit := @insertFixupsLoop_of_black _ _ _ tree' ctx
          ⟨side, .black, parent', .nodeOn side .red s grandParent uncle⟩ t' node' h' hnode' rfl
          fuel
        have hredBlack : (plug ctx (.nodeOn side .black t' parent'
            (.nodeOn side .red s grandParent uncle))).RedBlack := by
          refine redBlack_plug.mpr ⟨n + 1, Tree.proper_black.mpr ⟨ht', proper_red.mpr
            ⟨⟨hs, huncle⟩, hs', huncleProper⟩⟩, ?_⟩
          rw [Tree.color_nodeOn]
          exact houter
        refine ⟨tree', _, ?_, h', hredBlack.paint, ?_, hrelinked, fun hleft => ?_⟩
        · rw [hloop, rotateUp_of_black huncle h, hstep]
          exact hexit
        · have hrotate := Tree.toList_rotate side .black .black .black .red t' s uncle parent'
            grandParent
          simp only [plug, toList_plug, ← hrotate]
          congr 2
          exact toList_nodeOn_congr side _ _ _ hlist.symm rfl
        · obtain ⟨rfl, rfl, hctx⟩ : fside = .left ∧ side = .left ∧ Leftmost ctx := by
            simpa [Leftmost] using hleft
          have hne : t ≠ .nil := fun hnil => by rw [hnil] at hnode; cases hnode
          rw [houtside rfl, first_plug hctx (Tree.nodeOn_ne_nil _ _ _ _ _), first_plug hleft hne]
          exact Tree.first_node hne _ _ _

/-! ## Insertion -/

theorem attach_spec
    (h : tree.Holds (plug (frame :: ctx) .nil)) (hnode : node ∉ (plug (frame :: ctx) .nil).toList)
    (hleft : (tree.nodes node).leftChild = none) (hright : (tree.nodes node).rightChild = none)
    {c : Color} (hcolor : (tree.nodes node).color = c) :
    ((tree.setChild frame.side frame.value (some node)).setParent node (some frame.value)).Holds
      (plug (frame :: ctx) (.node c .nil node .nil)) := by
  obtain ⟨-, hctx, -, hnodup, -⟩ := holds_plug.mp h
  have hvalues : node ∉ values (frame :: ctx) := by
    rwa [toList_plug, List.mem_append, List.mem_append, or_left_comm, ← mem_values,
      toList, or_iff_right (List.not_mem_nil)] at hnode
  have hne : node ≠ frame.value := fun heq => hvalues (by simp [values, heq])
  have hctx' : Around ((tree.setChild frame.side frame.value (some node)).setParent node
      (some frame.value)).nodes none tree.root (frame :: ctx) (some node) :=
    (around_setChild hctx hnodup (some node)).congr fun y hy =>
      setNode_nodes_of_ne _ _ _ fun heq => hvalues (heq ▸ hy)
  refine holds_plug.mpr ⟨?_, hctx', by simp [toList], hnodup, by simpa [toList]⟩
  have hself : ((tree.setChild frame.side frame.value (some node)).setParent node
      (some frame.value)).nodes node = (tree.nodes node).setParent (some frame.value) := by
    rw [show (tree.nodes node) = (tree.setChild frame.side frame.value (some node)).nodes node from
      (setNode_nodes_of_ne _ _ _ hne).symm]
    exact setNode_nodes_self _ _ _
  rw [Owns, hself]
  exact ⟨hcolor, rfl, hleft, hright, trivial, trivial⟩

variable [LinearOrder K]

/-- The red-black invariants of a tree in memory. -/
structure Valid (tree : BaseRedBlackTree P K) (t : Tree P) : Prop where
  holds : tree.Holds t
  redBlack : t.RedBlack
  sorted : t.toList.Pairwise fun p q => (tree.nodes p).key ≤ (tree.nodes q).key
  minimum : tree.minimum = t.toList.head?
  size : tree.size = t.toList.length

omit [DecidableEq P] in
/-- The first loop of `insert` finds the place between the keys that are not above and
those above. -/
theorem insertParent_spec {tree : BaseRedBlackTree P K} {key : K} {t : Tree P}
    {ctx : List (Frame P)} {fuel : Nat} (h : tree.Holds (plug ctx t))
    (hsorted : (plug ctx t).toList.Pairwise fun p q => (tree.nodes p).key ≤ (tree.nodes q).key)
    (hbefore : ∀ x ∈ before ctx, (tree.nodes x).key ≤ key)
    (hafter : ∀ x ∈ after ctx, key < (tree.nodes x).key) (hfuel : t.toList.length ≤ fuel) :
    ∃ ctx', insertParent tree key fuel (parentOf ctx) t.top = some (parentOf ctx') ∧
      plug ctx' .nil = plug ctx t ∧ (∀ x ∈ before ctx', (tree.nodes x).key ≤ key) ∧
      ∀ x ∈ after ctx', key < (tree.nodes x).key := by
  induction t generalizing ctx fuel with
  | nil => exact ⟨ctx, by cases fuel <;> rfl, rfl, hbefore, hafter⟩
  | node c l p r ihl ihr =>
    rw [toList, List.length_append, List.length_cons] at hfuel
    obtain ⟨fuel, rfl⟩ := Nat.exists_eq_succ_of_ne_zero (show fuel ≠ 0 by omega)
    obtain ⟨-, -, hl, hr⟩ := @Holds.at_node _ _ tree ctx .left c l r p h
    have hlist : (plug ctx (.node c l p r)).toList =
        before ctx ++ (l.toList ++ p :: r.toList ++ after ctx) := toList_plug ..
    have hpr : ∀ x ∈ r.toList, (tree.nodes p).key ≤ (tree.nodes x).key := by
      intro x hx
      rw [hlist, List.append_assoc, List.pairwise_append, List.pairwise_append,
        List.cons_append, List.pairwise_cons] at hsorted
      exact hsorted.2.1.2.1.1 x (List.mem_append_left _ hx)
    have hlp : ∀ x ∈ l.toList, (tree.nodes x).key ≤ (tree.nodes p).key := by
      intro x hx
      rw [hlist, List.append_assoc, List.pairwise_append, List.pairwise_append] at hsorted
      exact hsorted.2.1.2.2 x hx p List.mem_cons_self
    rw [Tree.top, insertParent]
    split_ifs with hkey
    · obtain ⟨ctx', hparent, hplug, hbefore', hafter'⟩ :=
        @ihl (⟨.left, c, p, r⟩ :: ctx) fuel h hsorted (by simpa [before, Frame.before] using hbefore)
          (by
            intro x hx
            simp only [after, Frame.after, List.cons_append, List.mem_cons, List.mem_append] at hx
            rcases hx with rfl | hx | hx
            · exact hkey
            · exact lt_of_lt_of_le hkey (hpr x hx)
            · exact hafter x hx) (by omega)
      exact ⟨ctx', by rwa [show (tree.nodes p).leftChild = l.top from hl], hplug, hbefore',
        hafter'⟩
    · obtain ⟨ctx', hparent, hplug, hbefore', hafter'⟩ :=
        @ihr (⟨.right, c, p, l⟩ :: ctx) fuel h hsorted
          (by
            intro x hx
            simp only [before, Frame.before, List.mem_append, List.mem_singleton] at hx
            rcases hx with hx | hx | rfl
            · exact hbefore x hx
            · exact le_trans (hlp x hx) (not_lt.mp hkey)
            · exact not_lt.mp hkey) (by simpa [after, Frame.after] using hafter) (by omega)
      exact ⟨ctx', by rwa [show (tree.nodes p).rightChild = r.top from hr], hplug, hbefore',
        hafter'⟩

omit [LinearOrder K] in
theorem insertFixups_spec {tree : BaseRedBlackTree P K} {frame : Frame P} {ctx : List (Frame P)}
    {node : P} (h : tree.Holds (plug (frame :: ctx) (.node .red .nil node .nil)))
    (hredBlack : (plug (frame :: ctx) .nil).RedBlack) {fuel : Nat} (hfuel : ctx.length + 1 < fuel) :
    ∃ tree' t', (if (tree.nodes frame.value).parent ≠ none then
        (insertFixups fuel tree node).bind fun tree => insertFinish tree node
        else insertFinish tree node) = insertFinish tree' node ∧
      tree'.Holds t' ∧ t'.RedBlack ∧
      t'.toList = (plug (frame :: ctx) (.node .red .nil node .nil)).toList ∧
      Relinked (plug (frame :: ctx) (.node .red .nil node .nil)).toList tree tree' ∧
      (Leftmost (frame :: ctx) → t'.first = some (node, .nil)) := by
  obtain ⟨n, hnil, hfits⟩ := redBlack_plug.mp hredBlack
  obtain rfl : n = 0 := hnil.height
  have hleaf : (Foundation.Tree.node .red .nil node .nil).Proper 0 :=
    (@proper_red _ .left .nil .nil node 0).mpr ⟨⟨rfl, rfl⟩, hnil, hnil⟩
  have hfirst : ∀ {ctx : List (Frame P)}, Leftmost ctx →
      (plug ctx (.node .red .nil node .nil)).first = some (node, .nil) :=
    fun hleft => (first_plug hleft (by simp)).trans rfl
  rw [h.at_frame.2.1]
  cases ctx with
  | nil =>
    refine ⟨tree, _, rfl, h, ?_, rfl, Relinked.refl _ _, hfirst⟩
    have hblack : frame.color = .black := hfits.2.2
    exact redBlack_plug.mpr ⟨0, hleaf, fun hred => by simp [hblack] at hred, hfits.2⟩
  | cons frame' ctx =>
    have hred : (tree.nodes node).color = .red := (@Holds.at_node _ _ tree
      (frame :: frame' :: ctx) .left .red .nil .nil node h).1
    obtain ⟨tree₁, t₁, hloop, h₁, hredBlack₁, hlist, hrelinked, hfirst₁⟩ :=
      insertFixupsLoop_spec (frame :: frame' :: ctx) h rfl rfl hleaf hfits fuel hfuel
    obtain ⟨root, hroot⟩ : ∃ root, t₁.top = some root := by
      cases t₁ with
      | nil =>
        rw [toList_plug] at hlist
        simp [toList] at hlist
      | node c l x r => exact ⟨x, rfl⟩
    refine ⟨tree₁.setColor root .black, t₁.paint .black, ?_, ?_, hredBlack₁, ?_, ?_, ?_⟩
    · rw [if_pos (by simp [parentOf, parentFrom]), insertFixups, if_pos hred, hloop]
      simp only [Option.bind_some, blackenRoot, h₁.root, hroot, Option.map_some]
    · exact @Holds.setColor _ _ _ tree₁ [] t₁ root h₁ hroot .black
    · rw [Tree.toList_paint, hlist]
    · refine hrelinked.trans (relinked_setColor tree₁ .black ?_)
      rw [← hlist]
      exact Tree.top_mem hroot
    · intro hleft
      rw [Tree.first_paint, hfirst₁ hleft, hfirst hleft]

omit [DecidableEq P] [LinearOrder K] in
theorem Holds.leftChild_first {tree : BaseRedBlackTree P K} {t : Tree P} (h : tree.Holds t)
    {m : P} {rest : List P} (hlist : t.toList = m :: rest) : (tree.nodes m).leftChild = none := by
  obtain ⟨ctx, c, l, r, rfl⟩ := exists_plug (show m ∈ t.toList by simp [hlist])
  obtain ⟨-, -, hleft, -⟩ := @Holds.at_node _ _ tree ctx .left c l r m h
  have hnodup := h.nodup
  rw [toList_plug, toList] at hlist hnodup
  cases hl : before ctx ++ l.toList with
  | nil =>
    have hl' := (List.append_eq_nil_iff.mp hl).2
    rw [Tree.toList_eq_nil] at hl'
    rw [show (tree.nodes m).leftChild = l.top from hleft, hl']
    rfl
  | cons x xs =>
    -- otherwise the first of the list is another one
    have happend : before ctx ++ (l.toList ++ m :: r.toList ++ after ctx) =
        x :: xs ++ m :: (r.toList ++ after ctx) := by
      rw [← hl]
      simp
    rw [happend] at hlist hnodup
    obtain ⟨rfl, -⟩ := List.cons.inj hlist
    simp at hnodup

omit [LinearOrder K] in
/-- `m_minimum` stays the first node. -/
theorem insertFinish_spec {tree : BaseRedBlackTree P K} {t : Tree P} {node : P}
    {before after : List P} (h : tree.Holds t) (hlist : t.toList = before ++ node :: after)
    (hminimum : tree.minimum = (before ++ after).head?) (hne : before ++ after ≠ [])
    (hfirst : before = [] → t.first = some (node, .nil)) : insertFinish tree node =
      some { tree with size := tree.size + 1, minimum := t.toList.head? } := by
  cases before with
  | nil =>
    cases after with
    | nil => exact absurd rfl hne
    | cons m after =>
      obtain ⟨ctx, c, c', r, rfl⟩ := exists_second hlist (hfirst rfl)
      have hleft := (@Holds.at_node _ _ tree ctx .left c (.node c' .nil node .nil) r m h).2.2.1
      have hleft' : (tree.nodes m).leftChild = some node := hleft
      rw [hlist]
      simp [insertFinish, hminimum, hleft']
  | cons m before =>
    have hleft := h.leftChild_first hlist
    rw [hlist]
    simp [insertFinish, hminimum, hleft]

/-- The nodes with a key, between those that are not above and those above. -/
def inserted (tree : BaseRedBlackTree P K) (t : Tree P) (node : P) : List P :=
  (t.toList.filter fun p => (tree.nodes p).key ≤ (tree.nodes node).key) ++
    node :: t.toList.filter fun p => (tree.nodes node).key < (tree.nodes p).key

omit [DecidableEq P] in
theorem inserted_eq {tree : BaseRedBlackTree P K} {t : Tree P} {node : P} {l r : List P}
    (hlist : t.toList = l ++ r) (hl : ∀ x ∈ l, (tree.nodes x).key ≤ (tree.nodes node).key)
    (hr : ∀ x ∈ r, (tree.nodes node).key < (tree.nodes x).key) :
    inserted tree t node = l ++ node :: r := by
  have hl₁ : l.filter (fun p => (tree.nodes p).key ≤ (tree.nodes node).key) = l :=
    List.filter_eq_self.mpr fun x hx => by simpa using hl x hx
  have hr₁ : r.filter (fun p => (tree.nodes p).key ≤ (tree.nodes node).key) = [] :=
    List.filter_eq_nil_iff.mpr fun x hx => by simpa using hr x hx
  have hl₂ : l.filter (fun p => (tree.nodes node).key < (tree.nodes p).key) = [] :=
    List.filter_eq_nil_iff.mpr fun x hx => by simpa using hl x hx
  have hr₂ : r.filter (fun p => (tree.nodes node).key < (tree.nodes p).key) = r :=
    List.filter_eq_self.mpr fun x hx => by simpa using hr x hx
  rw [inserted, hlist, List.filter_append, List.filter_append, hl₁, hr₁, hl₂, hr₂]
  simp

/-- A list with a new node between the smaller and the larger keys is in order. -/
theorem pairwise_insert {α : Type} {key : α → K} {l r : List α} {x : α}
    (h : (l ++ r).Pairwise fun p q => key p ≤ key q) (hl : ∀ y ∈ l, key y ≤ key x)
    (hr : ∀ y ∈ r, key x < key y) : (l ++ x :: r).Pairwise fun p q => key p ≤ key q := by
  rw [List.pairwise_append] at h ⊢
  obtain ⟨hpl, hpr, hlr⟩ := h
  refine ⟨hpl, List.pairwise_cons.mpr ⟨fun y hy => le_of_lt (hr y hy), hpr⟩, ?_⟩
  intro y hy z hz
  rcases List.mem_cons.mp hz with rfl | hz
  · exact hl y hy
  · exact hlr y hy z hz

/-- What `insert` asks of a node: no children, and of what an earlier life may have left
behind no parent when it becomes the root, and no black when it does not. -/
structure Insertable (tree : BaseRedBlackTree P K) (t : Tree P) (node : P) : Prop where
  notMem : node ∉ t.toList
  leftChild : (tree.nodes node).leftChild = none
  rightChild : (tree.nodes node).rightChild = none
  root : t = .nil → (tree.nodes node).parent = none
  red : t ≠ .nil → (tree.nodes node).color = .red

theorem insert_nil (h : tree.Valid .nil)
    (hnode : tree.Insertable .nil node) {fuel : Nat} (hfuel : 0 < fuel) :
    ∃ tree', insert fuel tree node = some tree' ∧
      tree'.Valid (.node .black .nil node .nil) ∧
      (∀ x, (tree'.nodes x).key = (tree.nodes x).key) ∧
      ∀ x, x ≠ node → tree'.nodes x = tree.nodes x := by
  obtain ⟨fuel, rfl⟩ := Nat.exists_eq_succ_of_ne_zero (show fuel ≠ 0 by omega)
  have hparent : insertParent tree (tree.nodes node).key (fuel + 1) none tree.root = some none := by
    rw [h.holds.root]
    rfl
  have hself : (tree.setColor node .black).nodes node = (tree.nodes node).setColor .black :=
    setNode_nodes_self _ _ _
  refine ⟨{ tree.setColor node .black with root := some node, size := 1, minimum := some node },
    by rw [insert, hparent]; rfl, ⟨⟨?_, rfl, by simp [toList]⟩, ?_, by simp [toList],
    rfl, rfl⟩, (relinked_setColor tree .black (List.mem_singleton_self node)).key, fun x hx => ?_⟩
  · rw [Owns, hself]
    exact ⟨rfl, hnode.root rfl, hnode.leftChild, hnode.rightChild, trivial, trivial⟩
  · exact ⟨rfl, 1, (@Tree.proper_black _ .left .nil .nil node 0).mpr
      ⟨proper_nil, proper_nil⟩⟩
  · exact setNode_nodes_of_ne _ _ _ hx

omit [DecidableEq P] in
theorem side_of_key {tree : BaseRedBlackTree P K} {key : K} {frame : Frame P} {ctx : List (Frame P)}
    (hbefore : ∀ x ∈ before (frame :: ctx), (tree.nodes x).key ≤ key)
    (hafter : ∀ x ∈ after (frame :: ctx), key < (tree.nodes x).key) :
    (if key < (tree.nodes frame.value).key then Side.left else Side.right) = frame.side := by
  obtain ⟨side, c, p, s⟩ := frame
  cases side with
  | left => exact if_pos (hafter p (by simp [after, Frame.after]))
  | right => exact if_neg (not_lt.mpr (hbefore p (by simp [before, Frame.before])))

theorem insert_cons (h : tree.Valid t)
    (ht : t ≠ .nil) (hnode : tree.Insertable t node) {fuel : Nat} (hfuel : t.toList.length < fuel) :
    ∃ tree' t', insert fuel tree node = some tree' ∧ tree'.Valid t' ∧
      t'.toList = inserted tree t node ∧
      (∀ x, (tree'.nodes x).key = (tree.nodes x).key) ∧
      ∀ x ∉ t'.toList, tree'.nodes x = tree.nodes x := by
  obtain ⟨ctx, hparent, hplug, hbefore, hafter⟩ := @insertParent_spec _ _ _ tree
    (tree.nodes node).key t [] fuel h.holds h.sorted nofun nofun (by omega)
  cases ctx with
  | nil => exact absurd hplug.symm ht
  | cons frame ctx =>
    obtain rfl : plug (frame :: ctx) .nil = t := hplug
    have hlist : (plug (frame :: ctx) .nil).toList =
        before (frame :: ctx) ++ after (frame :: ctx) := toList_plug ..
    have hside := side_of_key hbefore hafter
    have h₂ := attach_spec h.holds hnode.notMem hnode.leftChild hnode.rightChild (hnode.red ht)
    have hlength : ctx.length + 1 < fuel := by
      have := length_le_length_plug (frame :: ctx) (.nil : Tree P)
      rw [List.length_cons] at this
      omega
    obtain ⟨tree', t', hfixups, h', hredBlack, hlist', hrelinked, hfirst⟩ :=
      insertFixups_spec h₂ h.redBlack hlength
    rw [toList_plug, show (Foundation.Tree.node .red .nil node .nil).toList = [node] from rfl,
      List.singleton_append] at hlist' hrelinked
    have hinserted : inserted tree (plug (frame :: ctx) .nil) node =
        before (frame :: ctx) ++ node :: after (frame :: ctx) :=
      inserted_eq hlist hbefore hafter
    -- what has changed so far
    have hframe : frame.value ∈ before (frame :: ctx) ++ node :: after (frame :: ctx) := by
      have hvalue : frame.value ∈ values (frame :: ctx) := List.mem_cons_self
      rw [mem_values] at hvalue
      simp only [List.mem_append, List.mem_cons]
      tauto
    have hall : Relinked (before (frame :: ctx) ++ node :: after (frame :: ctx)) tree tree' :=
      (relinked_setChild frame.side tree (some node) hframe).trans
        ((relinked_setParent _ (some frame.value) (by simp)).trans hrelinked)
    have hfinish := insertFinish_spec h' hlist'
      (by rw [hall.minimum, h.minimum, hlist])
      (fun hnil => ht (Tree.toList_eq_nil.mp (hlist.trans hnil)))
      (fun hnil => hfirst (leftmost_of_before hnil))
    refine ⟨{ tree' with size := tree'.size + 1, minimum := t'.toList.head? }, t', ?_,
      ⟨⟨h'.owns, h'.root, h'.nodup⟩, hredBlack, ?_, rfl, ?_⟩, ?_, hall.key, ?_⟩
    · rw [insert, show tree.root = (plug (frame :: ctx) .nil).top from h.holds.root]
      rw [show insertParent tree (tree.nodes node).key fuel none (plug (frame :: ctx) .nil).top =
        some (some frame.value) from hparent]
      simp only [Option.bind_some, hside]
      rw [hfixups, hfinish]
    · simp only [hall.key]
      rw [hlist']
      exact pairwise_insert (hlist ▸ h.sorted) hbefore hafter
    · have hsize : tree'.size = (plug (frame :: ctx) .nil).toList.length :=
        hall.size.trans h.size
      simp only [hsize, hlist, hlist', List.length_append, List.length_cons]
      omega
    · rw [hlist', hinserted]
    · intro x hx
      exact hall.outside x (hlist' ▸ hx)

theorem insert_valid (h : tree.Valid t)
    (hnode : tree.Insertable t node) {fuel : Nat} (hfuel : t.toList.length < fuel) :
    ∃ tree' t', insert fuel tree node = some tree' ∧ tree'.Valid t' ∧
      t'.toList = inserted tree t node ∧
      (∀ x, (tree'.nodes x).key = (tree.nodes x).key) ∧
      ∀ x ∉ t'.toList, tree'.nodes x = tree.nodes x := by
  by_cases ht : t = .nil
  · subst ht
    obtain ⟨tree', hinsert, h', hkey, houtside⟩ := insert_nil h hnode hfuel
    exact ⟨tree', _, hinsert, h', rfl, hkey, fun x hx =>
      houtside x fun heq => hx (by simp [toList, heq])⟩
  · exact insert_cons h ht hnode hfuel

/-- A new node. -/
structure Fresh (tree : BaseRedBlackTree P K) (node : P) : Prop where
  leftChild : (tree.nodes node).leftChild = none
  rightChild : (tree.nodes node).rightChild = none
  parent : (tree.nodes node).parent = none
  red : (tree.nodes node).color = .red

/-- One node with key 5 at address 0. -/
def sampleTree : BaseRedBlackTree Nat Nat where
  nodes := fun p => if p = 0 then { color := .black, key := 5 } else { key := p }
  root := some 0
  size := 1
  minimum := some 0

theorem sampleTree_valid : sampleTree.Valid (.node .black .nil 0 .nil) where
  holds := ⟨⟨rfl, rfl, rfl, rfl, trivial, trivial⟩, rfl, by decide⟩
  redBlack := ⟨rfl, 1, (@Tree.proper_black _ .left .nil .nil 0 0).mpr
    ⟨proper_nil, proper_nil⟩⟩
  sorted := by simp [toList]
  minimum := rfl
  size := rfl

end BaseRedBlackTree

end Literate.AK
