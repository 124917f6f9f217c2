import Literate.AK.RedBlackRelink

/-!
# AK: the fixups of a removal

The loop of `remove_fixups` stands at a place that lacks a black node.  It fills the place, or
goes up to the parent; from a left child it does not go up, so that it dereferences null or makes
the paths through that child too long.
-/

namespace Literate.AK

open Foundation Option
open Foundation.Tree (top_nodeOn nodeOn_other paint_nodeOn proper_red proper_black color_nodeOn)

namespace BaseRedBlackTree

variable {P K : Type}

/-! ## Rearrangements -/

/-- The same nodes, in the same order, with other colours and links. -/
structure Rearranged (tree tree' : BaseRedBlackTree P K) (t t' : Tree P) : Prop where
  holds : tree'.Holds t'
  list : t'.toList = t.toList
  relinked : Relinked t.toList tree tree'

theorem Rearranged.trans {tree tree' tree'' : BaseRedBlackTree P K} {t t' t'' : Tree P}
    (h : Rearranged tree tree' t t') (h' : Rearranged tree' tree'' t' t'') :
    Rearranged tree tree'' t t'' :=
  ⟨h'.holds, h'.list.trans h.list, h.relinked.trans (h.list ▸ h'.relinked)⟩

section

variable [DecidableEq P] {tree : BaseRedBlackTree P K} {ctx : List (Frame P)} {side : Side}
  {c c' : Color} {t s x y : Tree P} {p q w : P}

theorem rearranged_setColor (h : tree.Holds (plug ctx t)) (hp : t.top = some p) (c : Color) :
    Rearranged tree (tree.setColor p c) (plug ctx t) (plug ctx (t.paint c)) where
  holds := h.setColor hp c
  list := by simp only [toList_plug, Tree.toList_paint]
  relinked := by
    refine relinked_setColor tree c ?_
    simp only [toList_plug, List.mem_append]
    exact .inr (.inl (Tree.top_mem hp))

theorem rearranged_setColor_sibling (h : tree.Holds (plug (⟨side, c, p, s⟩ :: ctx) t))
    (hq : s.top = some q) (c' : Color) :
    Rearranged tree (tree.setColor q c') (plug (⟨side, c, p, s⟩ :: ctx) t)
      (plug (⟨side, c, p, s.paint c'⟩ :: ctx) t) := by
  rw [plug_sibling] at h ⊢
  rw [plug_sibling side c p (s.paint c')]
  exact rearranged_setColor h hq c'

theorem rearranged_rotate {a b d : Tree P}
    (h : tree.Holds (plug ctx (.nodeOn side c a p (.nodeOn side c' b q d)))) :
    ∃ tree', rotate side tree p = some tree' ∧
      Rearranged tree tree' (plug ctx (.nodeOn side c a p (.nodeOn side c' b q d)))
        (plug ctx (.nodeOn side c' (.nodeOn side c a p b) q d)) := by
  obtain ⟨tree', hrotate, h', hrelinked⟩ := h.rotate
  refine ⟨tree', hrotate, h', ?_, hrelinked⟩
  rw [toList_plug, toList_plug, Tree.toList_rotate]

/-! ## The cases of the fixups -/

omit [DecidableEq P] in
theorem Holds.at_sibling {cs : Color} {near far : Tree P}
    (h : tree.Holds (plug (⟨side, c, p, .nodeOn side cs near q far⟩ :: ctx) t)) :
    (tree.nodes p).color = c ∧ (tree.nodes p).child side.other = some q ∧
      (tree.nodes q).color = cs ∧ (tree.nodes q).child side = near.top ∧
      (tree.nodes q).child side.other = far.top := by
  obtain ⟨hcolor, -, -, hsibling⟩ := h.at_frame
  rw [plug_sibling] at h
  obtain ⟨hqcolor, -, hnear, hfar⟩ := h.at_node
  exact ⟨hcolor, hsibling.trans (top_nodeOn ..), hqcolor, hnear, hfar⟩

omit [DecidableEq P] in
/-- The place of the nephew on the other side of the sibling. -/
theorem plug_far (side : Side) (c cs : Color) (p q : P) (x y t : Tree P) (ctx : List (Frame P)) :
    plug (⟨side, c, p, .nodeOn side cs x q y⟩ :: ctx) t =
      plug (⟨side.other, cs, q, x⟩ :: ⟨side.other, c, p, t⟩ :: ctx) y := by
  rw [plug_sibling, ← nodeOn_other]
  rfl

omit [DecidableEq P] in
theorem plug_near (side : Side) (c cs : Color) (p q : P) (x y t : Tree P) (ctx : List (Frame P)) :
    plug (⟨side, c, p, .nodeOn side cs x q y⟩ :: ctx) t =
      plug (⟨side, cs, q, y⟩ :: ⟨side.other, c, p, t⟩ :: ctx) x := by
  rw [plug_sibling]
  rfl

/-- The last case of the loop: the sibling is rotated above the parent. -/
theorem turn_spec {cs : Color}
    (h : tree.Holds (plug (⟨side, c, p, .nodeOn side cs x q y⟩ :: ctx) t)) (hy : y.top = some w) :
    ∃ tree', removeFixupsRotate.turn side p tree q = some tree' ∧
      Rearranged tree tree' (plug (⟨side, c, p, .nodeOn side cs x q y⟩ :: ctx) t)
        (plug ctx (.nodeOn side c (.nodeOn side .black t p x) q (y.paint .black))) := by
  obtain ⟨hcolor, -⟩ := h.at_sibling
  have h₁ := rearranged_setColor_sibling h (top_nodeOn ..) c
  rw [paint_nodeOn] at h₁
  have h₂ := @rearranged_setColor _ _ _ _ ctx _ p h₁.holds (top_nodeOn ..) .black
  rw [Frame.plug, paint_nodeOn] at h₂
  have hfar : (((tree.setColor q c).setColor p .black).nodes q).child side.other = some w := by
    have hplace : ((tree.setColor q c).setColor p .black).Holds
        (plug (⟨side, .black, p, .nodeOn side c x q y⟩ :: ctx) t) := h₂.holds
    exact hplace.at_sibling.2.2.2.2.trans hy
  have h₃ : Rearranged ((tree.setColor q c).setColor p .black)
      (((tree.setColor q c).setColor p .black).setColor w .black)
      (plug (⟨side, .black, p, .nodeOn side c x q y⟩ :: ctx) t)
      (plug (⟨side, .black, p, .nodeOn side c x q (y.paint .black)⟩ :: ctx) t) := by
    simp only [plug_far]
    refine rearranged_setColor ?_ hy .black
    rw [← plug_far]
    exact h₂.holds
  obtain ⟨tree', hrotate, h₄⟩ := @rearranged_rotate _ _ _ _ ctx side .black c p q t x _ h₃.holds
  refine ⟨tree', ?_, h₁.trans (h₂.trans (h₃.trans h₄))⟩
  rw [removeFixupsRotate.turn, hcolor, hfar]
  exact hrotate

theorem rotate_far {cs : Color} (hred : y.color = .red)
    (h : tree.Holds (plug (⟨side, c, p, .nodeOn side cs x q y⟩ :: ctx) t)) :
    ∃ tree', removeFixupsRotate side tree p q = some tree' ∧
      Rearranged tree tree' (plug (⟨side, c, p, .nodeOn side cs x q y⟩ :: ctx) t)
        (plug ctx (.nodeOn side c (.nodeOn side .black t p x) q (y.paint .black))) := by
  obtain ⟨w, hw⟩ : ∃ w, y.top = some w := by
    cases y with
    | nil => cases hred
    | node cy l w r => exact ⟨w, rfl⟩
  have hfar : (tree.nodes q).child side.other = y.top := h.at_sibling.2.2.2.2
  have hisRed : tree.isRed y.top = true := by
    rw [plug_far] at h
    rw [h.isRed, hred]
    rfl
  obtain ⟨tree', hturn, h'⟩ := turn_spec h hw
  refine ⟨tree', ?_, h'⟩
  rw [removeFixupsRotate, hfar, if_pos hisRed]
  exact hturn

/-- The sibling has a red child on the side of the hole only, which is rotated above it first. -/
theorem rotate_near {cs cx : Color} {near far : Tree P} (hblack : y.color = .black) (h : tree.Holds
      (plug (⟨side, c, p, .nodeOn side cs (.nodeOn side cx near w far) q y⟩ :: ctx) t)) :
    ∃ tree', removeFixupsRotate side tree p q = some tree' ∧
      Rearranged tree tree'
        (plug (⟨side, c, p, .nodeOn side cs (.nodeOn side cx near w far) q y⟩ :: ctx) t)
        (plug ctx (.nodeOn side c (.nodeOn side .black t p near) w (.nodeOn side .black far q y))) := by
  obtain ⟨-, -, -, hnear, hfar⟩ := h.at_sibling
  rw [top_nodeOn] at hnear
  have hisRed : ¬ tree.isRed y.top = true := by
    rw [plug_far] at h
    rw [h.isRed, hblack]
    exact nofun
  have h₁ : Rearranged tree (tree.setColor w .black)
      (plug (⟨side, c, p, .nodeOn side cs (.nodeOn side cx near w far) q y⟩ :: ctx) t)
      (plug (⟨side, c, p, .nodeOn side cs (.nodeOn side .black near w far) q y⟩ :: ctx) t) := by
    rw [plug_near] at h
    have hcolor := rearranged_setColor h (top_nodeOn ..) .black
    rwa [paint_nodeOn, ← plug_near, ← plug_near] at hcolor
  have h₂ := rearranged_setColor_sibling h₁.holds (top_nodeOn ..) .red
  rw [paint_nodeOn] at h₂
  have hrotated : ∃ tree₃, rotate side.other ((tree.setColor w .black).setColor q .red) q =
        some tree₃ ∧
      Rearranged ((tree.setColor w .black).setColor q .red) tree₃
        (plug (⟨side, c, p, .nodeOn side .red (.nodeOn side .black near w far) q y⟩ :: ctx) t)
        (plug (⟨side, c, p, .nodeOn side .black near w (.nodeOn side .red far q y)⟩ :: ctx) t) := by
    have hbefore : plug (⟨side, c, p, .nodeOn side .red (.nodeOn side .black near w far) q y⟩ :: ctx) t =
        plug (⟨side.other, c, p, t⟩ :: ctx)
          (.nodeOn side.other .red y q (.nodeOn side.other .black far w near)) := by
      rw [plug_sibling, nodeOn_other, nodeOn_other]
    have hafter : plug (⟨side, c, p, .nodeOn side .black near w (.nodeOn side .red far q y)⟩ :: ctx) t =
        plug (⟨side.other, c, p, t⟩ :: ctx)
          (.nodeOn side.other .black (.nodeOn side.other .red y q far) w near) := by
      rw [plug_sibling, nodeOn_other, nodeOn_other]
    have hplace := h₂.holds
    rw [hbefore] at hplace ⊢
    rw [hafter]
    exact rearranged_rotate hplace
  obtain ⟨tree₃, hrotate, h₃⟩ := hrotated
  obtain ⟨tree', hturn, h₄⟩ := turn_spec h₃.holds (top_nodeOn ..)
  rw [paint_nodeOn] at h₄
  refine ⟨tree', ?_, h₁.trans (h₂.trans (h₃.trans h₄))⟩
  have hsibling : (tree₃.nodes p).child side.other = some w := h₃.holds.at_sibling.2.1
  rw [removeFixupsRotate, hfar, if_neg hisRed, hnear]
  dsimp only
  rw [hrotate, bind_some, hsibling]
  exact hturn

/-- What `remove_fixups` does with a black sibling. -/
def removeFixupsNephews (side : Side) (next : Option P → P → Option P) (node : Option P) (parent : P)
    (tree : BaseRedBlackTree P K) (sibling : P) : Option (BaseRedBlackTree P K × Option P) :=
  if !tree.isRed ((tree.nodes sibling).child .left) &&
      !tree.isRed ((tree.nodes sibling).child .right) then
    some (tree.setColor sibling .red, next node parent)
  else (removeFixupsRotate side tree parent sibling).map fun tree => (tree, tree.root)

theorem removeFixupsStep_eq (side : Side) (next : Option P → P → Option P)
    (tree : BaseRedBlackTree P K) (node : Option P) (parent : P) :
    removeFixupsStep side next tree node parent =
      (removeFixupsSibling side tree parent).bind fun r =>
        removeFixupsNephews side next node parent r.1 r.2 :=
  rfl

theorem sibling_black (h : tree.Holds (plug (⟨side, c, p, .nodeOn side .black x q y⟩ :: ctx) t)) :
    removeFixupsSibling side tree p = some (tree, q) := by
  obtain ⟨-, hsibling, hcolor, -⟩ := h.at_sibling
  have hblack : ¬ (tree.nodes q).color = .red := by
    rw [hcolor]
    exact nofun
  rw [removeFixupsSibling, hsibling]
  dsimp only
  rw [if_neg hblack]

theorem sibling_red (h : tree.Holds (plug (⟨side, c, p, .nodeOn side .red x q y⟩ :: ctx) t)) :
    ∃ tree', removeFixupsSibling side tree p = x.top.map (fun w => (tree', w)) ∧
      Rearranged tree tree' (plug (⟨side, c, p, .nodeOn side .red x q y⟩ :: ctx) t)
        (plug (⟨side, .red, p, x⟩ :: ⟨side, .black, q, y⟩ :: ctx) t) := by
  obtain ⟨-, hsibling, hcolor, -⟩ := h.at_sibling
  have h₁ := rearranged_setColor_sibling h (top_nodeOn ..) .black
  rw [paint_nodeOn] at h₁
  have h₂ := @rearranged_setColor _ _ _ _ ctx _ p h₁.holds (top_nodeOn ..) .red
  rw [Frame.plug, paint_nodeOn] at h₂
  obtain ⟨tree', hrotate, h₃⟩ := rearranged_rotate h₂.holds
  have hplace : tree'.Holds (plug (⟨side, .red, p, x⟩ :: ⟨side, .black, q, y⟩ :: ctx) t) := h₃.holds
  refine ⟨tree', ?_, h₁.trans (h₂.trans h₃)⟩
  rw [removeFixupsSibling, hsibling]
  dsimp only
  rw [if_pos hcolor, hrotate, bind_some, hplace.at_frame.2.2.2]

omit [DecidableEq P] in
theorem isRed_nephews {cs : Color}
    (h : tree.Holds (plug (⟨side, c, p, .nodeOn side cs x q y⟩ :: ctx) t)) :
    (!tree.isRed ((tree.nodes q).child .left) && !tree.isRed ((tree.nodes q).child .right)) = true ↔
      x.color = .black ∧ y.color = .black := by
  obtain ⟨-, -, -, hnear, hfar⟩ := h.at_sibling
  have hx : tree.isRed ((tree.nodes q).child side) = decide (x.color = .red) := by
    rw [plug_near] at h
    rw [hnear, h.isRed]
  have hy : tree.isRed ((tree.nodes q).child side.other) = decide (y.color = .red) := by
    rw [plug_far] at h
    rw [hfar, h.isRed]
  have hblack : ∀ color : Color, (!decide (color = .red)) = true ↔ color = .black := by
    intro color
    cases color <;> decide
  rw [Bool.and_eq_true]
  cases side with
  | left => rw [hx, show tree.isRed ((tree.nodes q).child .right) = _ from hy, hblack, hblack]
  | right =>
    rw [hx, show tree.isRed ((tree.nodes q).child .left) = _ from hy, hblack, hblack, and_comm]

section

variable {cs : Color} (next : Option P → P → Option P) (node : Option P)

theorem nephews_black (hx : x.color = .black) (hy : y.color = .black)
    (h : tree.Holds (plug (⟨side, c, p, .nodeOn side cs x q y⟩ :: ctx) t)) :
    removeFixupsNephews side next node p tree q = some (tree.setColor q .red, next node p) ∧
      Rearranged tree (tree.setColor q .red) (plug (⟨side, c, p, .nodeOn side cs x q y⟩ :: ctx) t)
        (plug (⟨side, c, p, .nodeOn side .red x q y⟩ :: ctx) t) := by
  have hcolor := rearranged_setColor_sibling h (top_nodeOn ..) .red
  rw [paint_nodeOn] at hcolor
  exact ⟨if_pos ((isRed_nephews h).mpr ⟨hx, hy⟩), hcolor⟩

/-- A red nephew: the sibling, or a child of it, takes the place of the parent, and there are two
black nodes below it. -/
theorem nephews_red (hnephews : ¬ (x.color = .black ∧ y.color = .black))
    (h : tree.Holds (plug (⟨side, c, p, .nodeOn side cs x q y⟩ :: ctx) t)) :
    ∃ tree' near w far, removeFixupsNephews side next node p tree q = some (tree', tree'.root) ∧
      Rearranged tree tree' (plug (⟨side, c, p, .nodeOn side cs x q y⟩ :: ctx) t)
        (plug ctx (.nodeOn side c (.nodeOn side .black t p near) w far)) ∧
      ∀ n, x.Proper n → y.Proper n → near.Proper n ∧ far.Proper (n + 1) ∧ far.color = .black := by
  have hstep : removeFixupsNephews side next node p tree q =
      (removeFixupsRotate side tree p q).map fun tree => (tree, tree.root) :=
    if_neg (mt (isRed_nephews h).mp hnephews)
  rw [hstep]
  by_cases hy : y.color = .red
  · obtain ⟨tree', hrotate, h'⟩ := rotate_far hy h
    refine ⟨tree', x, q, y.paint .black, by rw [hrotate]; rfl, h', fun n hx' hy' => ?_⟩
    exact ⟨hx', hy'.paint_of_red hy, Tree.color_paint_black y⟩
  · have hyblack := Color.eq_black_of_ne_red hy
    have hxred : x.color = .red := by
      by_contra hx
      exact hnephews ⟨Color.eq_black_of_ne_red hx, hyblack⟩
    obtain ⟨near, w, far, rfl⟩ : ∃ near w far, x = .nodeOn side .red near w far := by
      cases x with
      | nil => cases hxred
      | node cx l w r =>
        obtain rfl : cx = .red := hxred
        obtain ⟨near, far, hnode⟩ := Tree.exists_nodeOn side .red l w r
        exact ⟨near, w, far, hnode⟩
    obtain ⟨tree', hrotate, h'⟩ := rotate_near hyblack h
    refine ⟨tree', near, w, .nodeOn side .black far q y, by rw [hrotate]; rfl, h', fun n hx' hy' => ?_⟩
    obtain ⟨-, hnear, hfar⟩ := proper_red.mp hx'
    exact ⟨hnear, proper_black.mpr ⟨hfar, hy'⟩, color_nodeOn ..⟩

end

end

end BaseRedBlackTree

/-! ## Where the fixups work -/

variable {P : Type}

/-- Both children are black. -/
def BlackChildren : Tree P → Prop
  | .nil => True
  | .node _ l _ r => l.color = .black ∧ r.color = .black

/-- The sibling of a place on a side when a red one has been rotated above the parent. -/
def siblingBelow (side : Side) : Tree P → Tree P
  | .nil => .nil
  | .node .black l p r => .node .black l p r
  | .node .red l _ r =>
    match side with
    | .left => l
    | .right => r

/-- The fixups fill a place that lacks a black node: as long as both children of the sibling are
black they go up from right children, and they do not have to go up from a left one. -/
def Refillable : List (Frame P) → Prop
  | [] => True
  | ⟨.left, _, _, sibling⟩ :: _ => ¬ BlackChildren (siblingBelow .left sibling)
  | ⟨.right, color, _, sibling⟩ :: ctx =>
    color = .black → sibling.color = .black → BlackChildren sibling → Refillable ctx

theorem blackChildren_nodeOn {side : Side} {c : Color} {near far : Tree P} {p : P} :
    BlackChildren (.nodeOn side c near p far) ↔ near.color = .black ∧ far.color = .black := by
  cases side with
  | left => rfl
  | right => exact and_comm

theorem siblingBelow_red (side : Side) (near far : Tree P) (p : P) :
    siblingBelow side (.nodeOn side .red near p far) = near := by
  cases side <;> rfl

theorem siblingBelow_black (side side' : Side) (near far : Tree P) (p : P) :
    siblingBelow side (.nodeOn side' .black near p far) = .nodeOn side' .black near p far := by
  cases side' <;> rfl

namespace BaseRedBlackTree

variable {K : Type} [DecidableEq P]

variable {tree tree' : BaseRedBlackTree P K} {ctx : List (Frame P)} {side : Side} {c : Color}
  {t s : Tree P} {p : P} {fuel n : Nat}

/-! ## The loop -/

theorem removeFixups_succ (fuel : Nat) (tree : BaseRedBlackTree P K) (node parent : Option P) :
    removeFixups (fuel + 1) tree node parent =
      if node ≠ tree.root ∧ tree.isRed node = false then
        parent.bind fun parent =>
          (if (tree.nodes parent).leftChild = node then removeFixupsLeft tree node parent
            else removeFixupsRight tree node parent).bind fun r =>
              r.2.bind fun n => removeFixups fuel r.1 r.2 (r.1.nodes n).parent
      else node.map fun node => tree.setColor node .black := by
  rw [removeFixups, removeFixupsLoop]
  split_ifs with hloop
  · cases parent with
    | none => rfl
    | some parent =>
      rw [bind_some, bind_some, bind_assoc]
      congr 1
      funext r
      rw [bind_assoc]
      rfl
  · rfl

/-- Where `node` goes when both nephews are black. -/
def nextNode : Side → Option P → P → Option P
  | .left => fun node _ => node
  | .right => fun _ parent => some parent

omit [DecidableEq P] in
theorem Holds.top_ne_root {frame : Frame P} (h : tree.Holds (plug (frame :: ctx) t)) :
    t.top ≠ tree.root := by
  intro htop
  cases hroot : t.top with
  | none =>
    have hnil := Tree.top_eq_none.mp (h.root.symm.trans (htop.symm.trans hroot))
    have hlength := length_le_length_plug (frame :: ctx) t
    rw [hnil] at hlength
    simp [Tree.toList] at hlength
  | some x =>
    have hparent := h.parent_top hroot
    have hnone := @Holds.parent_top _ _ tree [] _ x h (h.root.symm.trans (htop.symm.trans hroot))
    cases hparent.symm.trans hnone

/-- A round for a black tree below a frame with a sibling. -/
theorem removeFixups_round {q : P} (h : tree.Holds (plug (⟨side, c, p, s⟩ :: ctx) t))
    (ht : t.color = .black) (hs : s.top = some q) (fuel : Nat) :
    removeFixups (fuel + 1) tree t.top (some p) =
      (removeFixupsStep side (nextNode side) tree t.top p).bind fun r =>
        r.2.bind fun n => removeFixups fuel r.1 r.2 (r.1.nodes n).parent := by
  have hloop : t.top ≠ tree.root ∧ tree.isRed t.top = false := by
    refine ⟨h.top_ne_root, ?_⟩
    rw [h.isRed, ht]
    rfl
  rw [removeFixups_succ, if_pos hloop, bind_some]
  obtain ⟨-, -, hchild, hother⟩ := h.at_frame
  cases side with
  | left =>
    have hleft : (tree.nodes p).leftChild = t.top := hchild
    rw [if_pos hleft]
    rfl
  | right =>
    have hleft : (tree.nodes p).leftChild = s.top := hother
    have hne : ¬ s.top = t.top := by
      intro hsame
      obtain ⟨-, -, hdisjoint⟩ := nodup_plug.mp h.nodup
      exact hdisjoint (Tree.top_mem (hsame.symm.trans hs)) (by simp [values, Tree.top_mem hs])
    rw [hleft, if_neg hne]
    rfl

theorem removeFixups_red (h : tree.Holds (plug ctx t)) (ht : t.color = .red)
    (hproper : (t.paint .black).Proper n) (hfits : Fits ctx .black n) (fuel : Nat)
    (parent : Option P) : ∃ tree' t', removeFixups (fuel + 1) tree t.top parent = some tree' ∧
      Rearranged tree tree' (plug ctx t) t' ∧ t'.RedBlack := by
  obtain ⟨x, hx⟩ : ∃ x, t.top = some x := by
    cases t with
    | nil => cases ht
    | node c l x r => exact ⟨x, rfl⟩
  have hend : ¬ (t.top ≠ tree.root ∧ tree.isRed t.top = false) := by
    rw [h.isRed, ht]
    exact fun hboth => Bool.noConfusion hboth.2
  refine ⟨_, _, ?_, rearranged_setColor h hx .black, redBlack_plug.mpr ⟨n, hproper, ?_⟩⟩
  · rw [removeFixups_succ, if_neg hend, hx]
    rfl
  · rwa [Tree.color_paint_black]

theorem removeFixups_root (h : tree.Holds t) (ht : t ≠ .nil) (fuel : Nat) (parent : Option P) :
    ∃ tree', removeFixups (fuel + 1) tree tree.root parent = some tree' ∧
      Rearranged tree tree' t (t.paint .black) := by
  obtain ⟨x, hx⟩ := ne_none_iff_exists'.mp (mt Tree.top_eq_none.mp ht)
  refine ⟨tree.setColor x .black, ?_, @rearranged_setColor _ _ _ _ [] t x h hx .black⟩
  rw [removeFixups_succ, if_neg fun hboth => hboth.1 rfl, h.root, hx]
  rfl

/-- A red nephew ends the loop, in a tree that is as high as it should be. -/
theorem round_nephews_red {cs : Color} {x y : Tree P} {q : P} {r : BaseRedBlackTree P K × Option P}
    (hr : removeFixupsNephews side (nextNode side) t.top p tree q = some r)
    (h : tree.Holds (plug (⟨side, c, p, .nodeOn side cs x q y⟩ :: ctx) t))
    (hnephews : ¬ (x.color = .black ∧ y.color = .black)) (ht : t.Proper n) (hx : x.Proper n)
    (hy : y.Proper n) (hfits : Fits ctx c (n + 1 + c.weight)) (fuel : Nat) :
    ∃ tree' t', (r.2.bind fun m => removeFixups (fuel + 1) r.1 r.2 (r.1.nodes m).parent) = some tree' ∧
      Rearranged tree tree' (plug (⟨side, c, p, .nodeOn side cs x q y⟩ :: ctx) t) t' ∧
      t'.RedBlack := by
  obtain ⟨tree₁, near, w, far, hstep, h₁, hproper⟩ :=
    nephews_red (nextNode side) t.top hnephews h
  obtain rfl := some.inj (hstep.symm.trans hr)
  obtain ⟨hnear, hfar, hfarBlack⟩ := hproper n hx hy
  have hredBlack : (plug ctx (.nodeOn side c (.nodeOn side .black t p near) w far)).RedBlack := by
    refine redBlack_plug.mpr ⟨n + 1 + c.weight, Tree.proper_nodeOn.mpr ⟨n + 1, rfl, fun _ => ?_,
      proper_black.mpr ⟨ht, hnear⟩, hfar⟩, ?_⟩
    · exact ⟨color_nodeOn .., hfarBlack⟩
    · rwa [color_nodeOn]
  have hne : plug ctx (.nodeOn side c (.nodeOn side .black t p near) w far) ≠ .nil :=
    plug_ne_nil ctx (Tree.nodeOn_ne_nil _ _ _ _ _)
  obtain ⟨x', hx'⟩ := ne_none_iff_exists'.mp (mt Tree.top_eq_none.mp hne)
  obtain ⟨tree', hroot, h₂⟩ := removeFixups_root h₁.holds hne fuel (tree₁.nodes x').parent
  refine ⟨tree', _, ?_, h₁.trans h₂, hredBlack.paint⟩
  rw [h₁.holds.root, hx', bind_some, ← hx', ← h₁.holds.root]
  exact hroot

theorem removeFixups_refills (ctx : List (Frame P)) (h : tree.Holds (plug ctx t))
    (hne : plug ctx t ≠ .nil) (hblack : t.color = .black) (ht : t.Proper n)
    (hfits : Fits ctx .black (n + 1)) (hrefillable : Refillable ctx) (hfuel : ctx.length < fuel) :
    ∃ tree' t', removeFixups fuel tree t.top (parentOf ctx) = some tree' ∧
      Rearranged tree tree' (plug ctx t) t' ∧ t'.RedBlack := by
  induction ctx generalizing t tree n fuel with
  | nil =>
    obtain ⟨fuel, rfl⟩ := Nat.exists_eq_succ_of_ne_zero (Nat.ne_of_gt hfuel)
    obtain ⟨tree', hroot, h'⟩ := removeFixups_root h hne fuel none
    refine ⟨tree', _, ?_, h', Tree.redBlack_paint ht⟩
    rw [h.root] at hroot
    exact hroot
  | cons frame ctx ih =>
    obtain ⟨side, c, p, s⟩ := frame
    obtain ⟨fuel, rfl⟩ := Nat.exists_eq_succ_of_ne_zero (Nat.ne_of_gt (Nat.zero_lt_of_lt hfuel))
    rw [List.length_cons, Nat.succ_lt_succ_iff] at hfuel
    obtain ⟨fuel, rfl⟩ := Nat.exists_eq_succ_of_ne_zero (Nat.ne_of_gt (Nat.zero_lt_of_lt hfuel))
    obtain ⟨hred, hs, hctx⟩ := hfits
    obtain ⟨cs, x, q, y, rfl⟩ := Tree.exists_nodeOn_of_proper side hs
    rw [parentOf, parentFrom, removeFixups_round h hblack (top_nodeOn ..), removeFixupsStep_eq]
    cases cs with
    | red =>
      obtain rfl : c = .black := Color.eq_black_of_ne_red fun hc => by
        cases (hred hc).2.symm.trans (color_nodeOn side .red x y q)
      obtain ⟨⟨hxBlack, -⟩, hx, hy⟩ := proper_red.mp hs
      obtain ⟨x₁, w, y₁, rfl, hx₁, hy₁⟩ := Tree.exists_nodeOn_black side hx hxBlack
      obtain ⟨tree₁, hsibling, h₁⟩ := sibling_red h
      rw [hsibling, top_nodeOn, map_some, bind_some]
      have hupper : Fits (⟨side, .black, q, y⟩ :: ctx) .black (n + 1) :=
        ⟨fun hc => absurd hc Color.noConfusion, hy, hctx⟩
      by_cases hnephews : x₁.color = .black ∧ y₁.color = .black
      · obtain ⟨hstep, h₂⟩ := nephews_black (nextNode side) t.top hnephews.1 hnephews.2 h₁.holds
        rw [hstep, bind_some]
        cases side with
        | left =>
          refine absurd ?_ hrefillable
          rw [siblingBelow_red]
          exact blackChildren_nodeOn.mpr hnephews
        | right =>
          have hproper : ((Tree.nodeOn .right .red t p (.nodeOn .right .red x₁ w y₁)).paint
              .black).Proper (n + 1) := by
            rw [paint_nodeOn]
            exact proper_black.mpr ⟨ht, proper_red.mpr ⟨hnephews, hx₁, hy₁⟩⟩
          obtain ⟨tree', t', hend, h₃, hredBlack⟩ := @removeFixups_red _ _ _ _
            (⟨.right, .black, q, y⟩ :: ctx) (.nodeOn .right .red t p (.nodeOn .right .red x₁ w y₁))
            _ h₂.holds (color_nodeOn ..) hproper hupper fuel
            ((tree₁.setColor w .red).nodes p).parent
          rw [top_nodeOn] at hend
          exact ⟨tree', t', hend, h₁.trans (h₂.trans h₃), hredBlack⟩
      · obtain ⟨tree₂, near, v, far, hstep, -, -⟩ :=
          nephews_red (nextNode side) t.top hnephews h₁.holds
        rw [hstep, bind_some]
        obtain ⟨tree', t', hend, h₃, hredBlack⟩ := round_nephews_red hstep h₁.holds hnephews ht
          hx₁ hy₁ ⟨fun hc => absurd hc Color.noConfusion, hy, hctx⟩ fuel
        exact ⟨tree', t', hend, h₁.trans h₃, hredBlack⟩
    | black =>
      obtain ⟨hx, hy⟩ := proper_black.mp hs
      rw [sibling_black h, bind_some]
      by_cases hnephews : x.color = .black ∧ y.color = .black
      · obtain ⟨hstep, h₁⟩ := nephews_black (nextNode side) t.top hnephews.1 hnephews.2 h
        rw [hstep, bind_some]
        cases side with
        | left =>
          refine absurd ?_ hrefillable
          rw [siblingBelow_black]
          exact blackChildren_nodeOn.mpr hnephews
        | right =>
          have hproper : (Tree.nodeOn .right .black t p (.nodeOn .right .red x q y)).Proper
              (n + 1) :=
            proper_black.mpr ⟨ht, proper_red.mpr ⟨hnephews, hx, hy⟩⟩
          have hplace : (tree.setColor q .red).Holds
              (plug ctx (.nodeOn .right c t p (.nodeOn .right .red x q y))) := h₁.holds
          have hparent := hplace.at_node.2.1
          dsimp only [nextNode]
          rw [bind_some, hparent]
          cases c with
          | red =>
            obtain ⟨tree', t', hend, h₂, hredBlack⟩ := removeFixups_red hplace
              (color_nodeOn ..) (by rwa [paint_nodeOn]) hctx.black fuel (parentOf ctx)
            rw [top_nodeOn] at hend
            exact ⟨tree', t', hend, h₁.trans h₂, hredBlack⟩
          | black =>
            obtain ⟨tree', t', hend, h₂, hredBlack⟩ := ih hplace
              (plug_ne_nil ctx (Tree.nodeOn_ne_nil _ _ _ _ _)) (color_nodeOn ..) hproper hctx
              (hrefillable rfl (color_nodeOn ..) (blackChildren_nodeOn.mpr hnephews)) hfuel
            rw [top_nodeOn] at hend
            exact ⟨tree', t', hend, h₁.trans h₂, hredBlack⟩
      · obtain ⟨tree₂, near, v, far, hstep, -, -⟩ :=
          nephews_red (nextNode side) t.top hnephews h
        rw [hstep, bind_some]
        exact round_nephews_red hstep h hnephews ht hx hy hctx fuel

/-! ## Where the fixups stay -/

/-- `node` stays below a red sibling that is not higher than itself.  Each round takes a node from
the sibling and puts it above `node`, until a null is dereferenced or `node` is too low. -/
theorem removeFixups_stays {m : Nat} (hne : t ≠ .nil) (hblack : t.color = .black)
    (ht : t.HasHeight m) (hs : s.color = .red) (hproper : s.Proper n) (hle : n ≤ m)
    (h : tree.Holds (plug (⟨.left, c, p, s⟩ :: ctx) t))
    (hend : removeFixups fuel tree t.top (some p) = some tree') :
    ∀ t', tree'.Holds t' → ¬ t'.RedBlack := by
  induction fuel generalizing tree ctx c s n with
  | zero => cases hend
  | succ fuel ih =>
    obtain ⟨x, q, y, rfl⟩ : ∃ x q y, s = .nodeOn .left .red x q y := by
      cases s with
      | nil => cases hs
      | node cs x q y =>
        obtain rfl : cs = .red := hs
        exact ⟨x, q, y, rfl⟩
    obtain ⟨⟨hxBlack, -⟩, hx, -⟩ := proper_red.mp hproper
    rw [removeFixups_round h hblack (top_nodeOn ..), removeFixupsStep_eq] at hend
    obtain ⟨tree₁, hsibling, h₁⟩ := sibling_red h
    rw [hsibling] at hend
    cases n with
    | zero =>
      -- the sibling becomes null
      have hnil : x = .nil := by
        cases x with
        | nil => rfl
        | node cx l w r =>
          obtain rfl : cx = .black := hxBlack
          obtain ⟨_, hzero, -⟩ := hx.height
          cases hzero
      rw [hnil] at hend
      cases hend
    | succ n =>
      obtain ⟨x₁, w, y₁, rfl, hx₁, hy₁⟩ := Tree.exists_nodeOn_black .left hx hxBlack
      rw [top_nodeOn, map_some, bind_some] at hend
      by_cases hnephews : x₁.color = .black ∧ y₁.color = .black
      · obtain ⟨hstep, h₂⟩ := nephews_black (nextNode .left) t.top hnephews.1 hnephews.2 h₁.holds
        obtain ⟨z, hz⟩ := ne_none_iff_exists'.mp (mt Tree.top_eq_none.mp hne)
        have hparent := h₂.holds.parent_top hz
        rw [hstep, bind_some] at hend
        dsimp only [nextNode] at hend
        rw [hz, bind_some, hparent, ← hz] at hend
        exact ih (color_nodeOn ..) (proper_red.mpr ⟨hnephews, hx₁, hy₁⟩) (by omega)
          h₂.holds hend
      · obtain ⟨tree₂, near, v, far, hstep, h₂, hnear⟩ :=
          nephews_red (nextNode .left) t.top hnephews h₁.holds
        rw [hstep, bind_some] at hend
        obtain ⟨z, -, hend⟩ := bind_eq_some_iff.mp hend
        have htree := plug_ne_nil (⟨.left, .black, q, y⟩ :: ctx)
          (Tree.nodeOn_ne_nil .left .red (.nodeOn .left .black t p near) far v)
        obtain ⟨fuel, rfl⟩ : ∃ f, fuel = f + 1 := by
          cases fuel with
          | zero => cases hend
          | succ fuel => exact ⟨fuel, rfl⟩
        obtain ⟨tree₃, hroot, h₃⟩ := removeFixups_root h₂.holds htree fuel (tree₂.nodes z).parent
        obtain rfl := some.inj (hroot.symm.trans hend)
        -- the paths through the node have one black node more than those through its sibling
        rintro t' ht' ⟨-, k, hk⟩
        obtain rfl := ht'.unique h₃.holds
        obtain ⟨_, hupper⟩ := exists_hasHeight_of_plug (Tree.exists_hasHeight_paint ⟨k, hk.height⟩)
        obtain ⟨_, -, hlower, -⟩ := Tree.hasHeight_nodeOn.mp hupper
        obtain ⟨j, -, htj, hnearj⟩ := Tree.hasHeight_nodeOn.mp hlower
        have hm := ht.unique htj
        have hn := (hnear n hx₁ hy₁).1.height.unique hnearj
        omega

/-- `node` is a left child whose nephews are black, and stays where it is. -/
theorem removeFixups_left {cs : Color} {x y : Tree P} {q : P} (hblack : t.color = .black)
    (ht : t.Proper n) (hx : x.Proper n) (hy : y.Proper n)
    (hnephews : x.color = .black ∧ y.color = .black)
    (h : tree.Holds (plug (⟨.left, c, p, .nodeOn .left cs x q y⟩ :: ctx) t))
    (hend : ((removeFixupsNephews .left (nextNode .left) t.top p tree q).bind fun r =>
      r.2.bind fun m => removeFixups fuel r.1 r.2 (r.1.nodes m).parent) = some tree') :
    ∀ t', tree'.Holds t' → ¬ t'.RedBlack := by
  obtain ⟨hstep, h₁⟩ := nephews_black (nextNode .left) t.top hnephews.1 hnephews.2 h
  rw [hstep, bind_some] at hend
  obtain ⟨z, hz, hend⟩ := bind_eq_some_iff.mp hend
  have hne : t ≠ .nil := fun hnil => by
    rw [hnil] at hz
    cases hz
  rw [h₁.holds.parent_top hz] at hend
  exact removeFixups_stays hne hblack ht.height (color_nodeOn ..)
    (proper_red.mpr ⟨hnephews, hx, hy⟩) (Nat.le_refl n) h₁.holds hend

/-- The fixups do not fill a place that is not refillable. -/
theorem removeFixups_fails (ctx : List (Frame P))
    (h : tree.Holds (plug ctx t)) (hblack : t.color = .black) (ht : t.Proper n)
    (hfits : Fits ctx .black (n + 1)) (hrefillable : ¬ Refillable ctx)
    (hend : removeFixups fuel tree t.top (parentOf ctx) = some tree') :
    ∀ t', tree'.Holds t' → ¬ t'.RedBlack := by
  induction ctx generalizing t tree n fuel with
  | nil => exact absurd trivial hrefillable
  | cons frame ctx ih =>
    obtain ⟨side, c, p, s⟩ := frame
    cases fuel with
    | zero => cases hend
    | succ fuel =>
      obtain ⟨hred, hs, hctx⟩ := hfits
      dsimp only at hred hs hctx
      obtain ⟨cs, x, q, y, rfl⟩ := Tree.exists_nodeOn_of_proper side hs
      rw [parentOf, parentFrom, removeFixups_round h hblack (top_nodeOn ..),
        removeFixupsStep_eq] at hend
      cases side with
      | left =>
        have hnephews := not_not.mp hrefillable
        cases cs with
        | red =>
          obtain ⟨⟨hxBlack, -⟩, hx, -⟩ := proper_red.mp hs
          obtain ⟨x₁, w, y₁, rfl, hx₁, hy₁⟩ := Tree.exists_nodeOn_black .left hx hxBlack
          rw [siblingBelow_red, blackChildren_nodeOn] at hnephews
          obtain ⟨tree₁, hsibling, h₁⟩ := sibling_red h
          rw [hsibling, top_nodeOn, map_some, bind_some] at hend
          exact removeFixups_left hblack ht hx₁ hy₁ hnephews h₁.holds hend
        | black =>
          obtain ⟨hx, hy⟩ := proper_black.mp hs
          rw [siblingBelow_black, blackChildren_nodeOn] at hnephews
          rw [sibling_black h, bind_some] at hend
          exact removeFixups_left hblack ht hx hy hnephews h hend
      | right =>
        rw [Refillable] at hrefillable
        simp only [Classical.not_imp, color_nodeOn, blackChildren_nodeOn] at hrefillable
        obtain ⟨rfl, rfl, hnephews, hrefillable⟩ := hrefillable
        obtain ⟨hx, hy⟩ := proper_black.mp hs
        rw [sibling_black h, bind_some] at hend
        obtain ⟨hstep, h₁⟩ := nephews_black (nextNode .right) t.top hnephews.1 hnephews.2 h
        have hplace : (tree.setColor q .red).Holds
            (plug ctx (.nodeOn .right .black t p (.nodeOn .right .red x q y))) := h₁.holds
        have hproper : (Tree.nodeOn .right .black t p (.nodeOn .right .red x q y)).Proper
            (n + 1) :=
          proper_black.mpr ⟨ht, proper_red.mpr ⟨hnephews, hx, hy⟩⟩
        rw [hstep, bind_some] at hend
        dsimp only [nextNode] at hend
        rw [bind_some, hplace.at_node.2.1] at hend
        have htop := top_nodeOn .right .black t (.nodeOn .right .red x q y) p
        rw [← htop] at hend
        exact ih hplace (color_nodeOn ..) hproper hctx hrefillable hend

end BaseRedBlackTree

end Literate.AK
