import Mathlib.Data.List.Basic
import Mathlib.Data.List.Nodup

/-!
# Foundation: red-black trees and their contexts

A tree with a place in it is a list of frames, innermost first, and the tree at that
place.  What a tree algorithm does at a place then speaks of two or three frames, and
`Fits` says what the rest of the tree asks of the hole.  Left and right are a
parameter, so that a case and its mirror image are one.
-/

namespace Literate.Foundation

open List Option

inductive Side where
  | left
  | right
  deriving DecidableEq, Repr

def Side.other : Side → Side
  | .left => .right
  | .right => .left

@[simp] theorem Side.other_other (side : Side) : side.other.other = side := by
  cases side <;> rfl

theorem Side.other_ne (side : Side) : side.other ≠ side := by
  cases side <;> decide

theorem Side.eq_other_of_ne {side side' : Side} (h : side ≠ side') : side = side'.other := by
  cases side <;> cases side' <;> first | rfl | exact absurd rfl h

inductive Color where
  | red
  | black
  deriving DecidableEq, Repr

/-- What a node of this colour adds to the black height. -/
def Color.weight : Color → Nat
  | .red => 0
  | .black => 1

theorem Color.eq_black_of_ne_red {c : Color} (h : c ≠ .red) : c = .black := by
  cases c with
  | red => exact absurd rfl h
  | black => rfl

inductive Tree (α : Type*) where
  | nil
  | node (color : Color) (left : Tree α) (value : α) (right : Tree α)
  deriving DecidableEq, Repr

variable {α : Type*}
variable {t near far : Tree α} {n : Nat}

namespace Tree

/-- A node whose child `near` is on the given side. -/
def nodeOn (side : Side) (c : Color) (near : Tree α) (x : α) (far : Tree α) : Tree α :=
  match side with
  | .left => node c near x far
  | .right => node c far x near

theorem nodeOn_other (side : Side) (c : Color) (near far : Tree α) (x : α) :
    nodeOn side.other c near x far = nodeOn side c far x near := by
  cases side <;> rfl

theorem exists_nodeOn (side : Side) (c : Color) (l : Tree α) (x : α) (r : Tree α) :
    ∃ near far, node c l x r = nodeOn side c near x far := by
  cases side with
  | left => exact ⟨l, r, rfl⟩
  | right => exact ⟨r, l, rfl⟩

theorem nodeOn_ne_nil (side : Side) (c : Color) (near far : Tree α) (x : α) :
    nodeOn side c near x far ≠ nil := by
  cases side <;> exact nofun

/-- The value at the root. -/
def top : Tree α → Option α
  | nil => none
  | node _ _ x _ => some x

/-- The colour of the root; the empty tree is black. -/
def color : Tree α → Color
  | nil => .black
  | node c _ _ _ => c

@[simp] theorem top_nodeOn (side : Side) (c : Color) (near far : Tree α) (x : α) :
    (nodeOn side c near x far).top = some x := by
  cases side <;> rfl

@[simp] theorem color_nodeOn (side : Side) (c : Color) (near far : Tree α) (x : α) :
    (nodeOn side c near x far).color = c := by
  cases side <;> rfl

theorem top_eq_none : t.top = none ↔ t = nil := by
  cases t <;> simp [top]

def toList : Tree α → List α
  | nil => []
  | node _ l x r => l.toList ++ x :: r.toList

theorem toList_eq_nil : t.toList = [] ↔ t = nil := by
  cases t <;> simp [toList]

theorem top_mem {x : α} (h : t.top = some x) : x ∈ t.toList := by
  cases t with
  | nil => cases h
  | node c l y r =>
    obtain rfl := some.inj h
    simp [toList]

theorem mem_nodeOn {side : Side} {c : Color} {near far : Tree α} {x y : α} :
    y ∈ (nodeOn side c near x far).toList ↔ y = x ∨ y ∈ near.toList ∨ y ∈ far.toList := by
  cases side <;> simp only [nodeOn, toList, mem_append, mem_cons] <;> tauto

theorem nodup_nodeOn {side : Side} {c : Color} {near far : Tree α} {x : α} :
    (nodeOn side c near x far).toList.Nodup ↔ x ∉ near.toList ∧ x ∉ far.toList ∧
      near.toList.Nodup ∧ far.toList.Nodup ∧ near.toList.Disjoint far.toList := by
  cases side with
  | left =>
    simp only [nodeOn, toList, nodup_append', nodup_cons, disjoint_cons_right]
    tauto
  | right =>
    have hcomm : far.toList.Disjoint near.toList ↔ near.toList.Disjoint far.toList :=
      List.disjoint_comm
    simp only [nodeOn, toList, nodup_append', nodup_cons, disjoint_cons_right]
    tauto

/-- The root takes another colour. -/
def paint (c : Color) : Tree α → Tree α
  | nil => nil
  | node _ l x r => node c l x r

@[simp] theorem paint_nodeOn (side : Side) (c c' : Color) (near far : Tree α) (x : α) :
    (nodeOn side c' near x far).paint c = nodeOn side c near x far := by
  cases side <;> rfl

theorem paint_color (t : Tree α) : t.paint t.color = t := by
  cases t <;> rfl

theorem toList_paint (c : Color) (t : Tree α) : (t.paint c).toList = t.toList := by
  cases t <;> rfl

/-- The same order of the values after a rotation. -/
theorem toList_rotate (side : Side) (c c' c₁ c₁' : Color) (a b d : Tree α) (p q : α) :
    (nodeOn side c' (nodeOn side c a p b) q d).toList =
      (nodeOn side c₁ a p (nodeOn side c₁' b q d)).toList := by
  cases side <;> simp [nodeOn, toList]

/-- The order of the values does not depend on the colours. -/
theorem toList_nodeOn_congr (side : Side) (c c' : Color) {a a' b b' : Tree α} (x : α)
    (ha : a.toList = a'.toList) (hb : b.toList = b'.toList) :
    (nodeOn side c a x b).toList = (nodeOn side c' a' x b').toList := by
  cases side <;> simp [nodeOn, toList, ha, hb]

/-! ## Balance -/

/-- Every path down to an empty tree meets `n` black nodes. -/
def HasHeight : Tree α → Nat → Prop
  | nil, n => n = 0
  | node c l _ r, n => ∃ m, n = m + c.weight ∧ HasHeight l m ∧ HasHeight r m

theorem hasHeight_nodeOn {side : Side} {c : Color} {x : α} :
    HasHeight (nodeOn side c near x far) n ↔
      ∃ m, n = m + c.weight ∧ HasHeight near m ∧ HasHeight far m := by
  cases side with
  | left => rfl
  | right =>
    simp only [nodeOn, HasHeight]
    exact exists_congr fun m => and_congr_right fun _ => and_comm

theorem HasHeight.unique {n' : Nat} (h : HasHeight t n) (h' : HasHeight t n') : n = n' := by
  induction t generalizing n n' with
  | nil => exact h.trans h'.symm
  | node c l x r ihl _ =>
    obtain ⟨m, rfl, hl, -⟩ := h
    obtain ⟨m', rfl, hl', -⟩ := h'
    rw [ihl hl hl']

/-- No red node has a red child. -/
def NoRedRed : Tree α → Prop
  | nil => True
  | node c l _ r => (c = .red → l.color = .black ∧ r.color = .black) ∧ NoRedRed l ∧ NoRedRed r

theorem noRedRed_nodeOn {side : Side} {c : Color} {x : α} : NoRedRed (nodeOn side c near x far) ↔
      (c = .red → near.color = .black ∧ far.color = .black) ∧ NoRedRed near ∧ NoRedRed far := by
  cases side with
  | left => rfl
  | right =>
    simp only [nodeOn, NoRedRed]
    tauto

/-- Both, for a tree that may have a red root. -/
structure Proper (t : Tree α) (n : Nat) : Prop where
  noRedRed : NoRedRed t
  height : HasHeight t n

theorem proper_nil : Proper (nil : Tree α) 0 := ⟨trivial, rfl⟩

theorem proper_nodeOn {side : Side} {c : Color} {near far : Tree α} {x : α} {n : Nat} :
    Proper (nodeOn side c near x far) n ↔ ∃ m, n = m + c.weight ∧
      (c = .red → near.color = .black ∧ far.color = .black) ∧ Proper near m ∧ Proper far m := by
  constructor
  · rintro ⟨hred, hheight⟩
    obtain ⟨hcolor, hnear, hfar⟩ := noRedRed_nodeOn.mp hred
    obtain ⟨m, hm, hnear', hfar'⟩ := hasHeight_nodeOn.mp hheight
    exact ⟨m, hm, hcolor, ⟨hnear, hnear'⟩, hfar, hfar'⟩
  · rintro ⟨m, hm, hcolor, hnear, hfar⟩
    exact ⟨noRedRed_nodeOn.mpr ⟨hcolor, hnear.noRedRed, hfar.noRedRed⟩,
      hasHeight_nodeOn.mpr ⟨m, hm, hnear.height, hfar.height⟩⟩

theorem proper_black {side : Side} {near far : Tree α} {x : α} {n : Nat} :
    Proper (nodeOn side .black near x far) (n + 1) ↔ Proper near n ∧ Proper far n := by
  rw [proper_nodeOn]
  constructor
  · rintro ⟨m, hm, -, hnear, hfar⟩
    obtain rfl : n = m := Nat.succ.inj hm
    exact ⟨hnear, hfar⟩
  · rintro ⟨hnear, hfar⟩
    exact ⟨n, rfl, nofun, hnear, hfar⟩

theorem proper_red {side : Side} {near far : Tree α} {x : α} {n : Nat} :
    Proper (nodeOn side .red near x far) n ↔
      (near.color = .black ∧ far.color = .black) ∧ Proper near n ∧ Proper far n := by
  rw [proper_nodeOn]
  constructor
  · rintro ⟨m, hm, hcolor, hnear, hfar⟩
    obtain rfl : n = m := hm
    exact ⟨hcolor rfl, hnear, hfar⟩
  · rintro ⟨hcolor, hnear, hfar⟩
    exact ⟨n, rfl, fun _ => hcolor, hnear, hfar⟩

theorem Proper.paint_black (h : Proper t n) : ∃ m, Proper (t.paint .black) m := by
  cases t with
  | nil => exact ⟨n, h⟩
  | node c l x r =>
    obtain ⟨m, -, -, hl, hr⟩ := (@proper_nodeOn _ .left c l r x n).mp h
    exact ⟨m + 1, (@proper_black _ .left l r x m).mpr ⟨hl, hr⟩⟩

theorem Proper.paint_of_red (h : Proper t n) (hred : t.color = .red) :
    Proper (t.paint .black) (n + 1) := by
  cases t with
  | nil => cases hred
  | node c l x r =>
    obtain rfl : c = .red := hred
    obtain ⟨-, hl, hr⟩ := (@proper_red _ .left l r x n).mp h
    exact (@proper_black _ .left l r x n).mpr ⟨hl, hr⟩

theorem color_paint_black (t : Tree α) : (t.paint .black).color = .black := by
  cases t <;> rfl

/-- The red-black invariants of a whole tree. -/
structure RedBlack (t : Tree α) : Prop where
  root : t.color = .black
  proper : ∃ n, Proper t n

theorem redBlack_paint (h : Proper t n) : RedBlack (t.paint .black) where
  root := color_paint_black t
  proper := h.paint_black

end Tree

/-! ## Contexts -/

/-- A node without the child on one side. -/
structure Frame (α : Type*) where
  side : Side
  color : Color
  value : α
  sibling : Tree α

namespace Frame

def plug (frame : Frame α) (t : Tree α) : Tree α :=
  Tree.nodeOn frame.side frame.color t frame.value frame.sibling

/-- The values before those in the hole. -/
def before (frame : Frame α) : List α :=
  match frame.side with
  | .left => []
  | .right => frame.sibling.toList ++ [frame.value]

/-- The values after those in the hole. -/
def after (frame : Frame α) : List α :=
  match frame.side with
  | .left => frame.value :: frame.sibling.toList
  | .right => []

end Frame

/-- The whole tree around a hole. -/
def plug : List (Frame α) → Tree α → Tree α
  | [], t => t
  | frame :: ctx, t => plug ctx (frame.plug t)

/-- The node above the hole, when `outer` is above all frames. -/
def parentFrom (outer : Option α) : List (Frame α) → Option α
  | [] => outer
  | frame :: _ => some frame.value

/-- The node above the hole of a whole tree. -/
abbrev parentOf (ctx : List (Frame α)) : Option α := parentFrom none ctx

def before : List (Frame α) → List α
  | [] => []
  | frame :: ctx => before ctx ++ frame.before

def after : List (Frame α) → List α
  | [] => []
  | frame :: ctx => frame.after ++ after ctx

theorem Frame.toList_plug (frame : Frame α) (t : Tree α) :
    (frame.plug t).toList = frame.before ++ (t.toList ++ frame.after) := by
  obtain ⟨side, c, x, s⟩ := frame
  cases side <;> simp [Frame.plug, Frame.before, Frame.after, Tree.nodeOn, Tree.toList]

theorem toList_plug (ctx : List (Frame α)) (t : Tree α) :
    (plug ctx t).toList = before ctx ++ (t.toList ++ after ctx) := by
  induction ctx generalizing t with
  | nil => simp [plug, before, after]
  | cons frame ctx ih =>
    rw [plug, ih, Frame.toList_plug]
    simp [before, after]

/-- The sibling and the hole change places. -/
theorem plug_sibling (side : Side) (c : Color) (x : α) (s t : Tree α) (ctx : List (Frame α)) :
    plug (⟨side, c, x, s⟩ :: ctx) t = plug (⟨side.other, c, x, t⟩ :: ctx) s := by
  simp only [plug, Frame.plug, Tree.nodeOn_other]

/-- All values of a context. -/
def values : List (Frame α) → List α
  | [] => []
  | frame :: ctx => frame.value :: (frame.sibling.toList ++ values ctx)

theorem mem_values {ctx : List (Frame α)} {x : α} :
    x ∈ values ctx ↔ x ∈ before ctx ∨ x ∈ after ctx := by
  induction ctx with
  | nil => simp [values, before, after]
  | cons frame ctx ih =>
    obtain ⟨side, c, y, s⟩ := frame
    simp only [values, before, after, mem_cons, mem_append, ih]
    cases side <;> simp [Frame.before, Frame.after] <;> tauto

theorem nodup_plug {ctx : List (Frame α)} : (plug ctx t).toList.Nodup ↔
      t.toList.Nodup ∧ (values ctx).Nodup ∧ t.toList.Disjoint (values ctx) := by
  induction ctx generalizing t with
  | nil => simp [plug, values]
  | cons frame ctx ih =>
    obtain ⟨side, c, y, s⟩ := frame
    have hcomm : s.toList.Disjoint t.toList ↔ t.toList.Disjoint s.toList := List.disjoint_comm
    rw [plug, ih, Frame.plug, Tree.nodup_nodeOn, values]
    simp only [nodup_cons, nodup_append', mem_append, disjoint_cons_right,
      disjoint_append_right]
    constructor
    · rintro ⟨⟨hyt, hys, ht, hs, hts⟩, hctx, hdisjoint⟩
      have hmem := fun x => @Tree.mem_nodeOn _ side c t s y x
      refine ⟨ht, ⟨fun h => h.elim hys ?_, hs, hctx, ?_⟩, hyt, hts, ?_⟩
      · exact hdisjoint ((hmem y).mpr (.inl rfl))
      · exact fun x hx => hdisjoint ((hmem x).mpr (.inr (.inr hx)))
      · exact fun x hx => hdisjoint ((hmem x).mpr (.inr (.inl hx)))
    · rintro ⟨ht, ⟨hy, hs, hctx, hsctx⟩, hyt, hts, htctx⟩
      refine ⟨⟨hyt, fun h => hy (.inl h), ht, hs, hts⟩, hctx, fun x hx => ?_⟩
      rcases Tree.mem_nodeOn.mp hx with rfl | hx | hx
      · exact fun h => hy (.inr h)
      · exact htctx hx
      · exact hsctx hx

/-- Every value of a tree is at some place. -/
theorem exists_plug {x : α} (h : x ∈ t.toList) : ∃ ctx c l r, t = plug ctx (.node c l x r) := by
  suffices hctx : ∀ outer, ∃ ctx c l r, plug outer t = plug ctx (.node c l x r) from hctx []
  induction t with
  | nil => cases h
  | node c l y r ihl ihr =>
    intro outer
    rw [Tree.toList, mem_append, mem_cons] at h
    rcases h with h | rfl | h
    · exact ihl h (⟨.left, c, y, r⟩ :: outer)
    · exact ⟨outer, c, l, r, rfl⟩
    · exact ihr h (⟨.right, c, y, l⟩ :: outer)

/-- A context has no more frames than values. -/
theorem length_le_length_plug (ctx : List (Frame α)) (t : Tree α) :
    ctx.length + t.toList.length ≤ (plug ctx t).toList.length := by
  induction ctx generalizing t with
  | nil => simp [plug]
  | cons frame ctx ih =>
    obtain ⟨side, c, x, s⟩ := frame
    have hlength : t.toList.length + 1 ≤ (Frame.plug ⟨side, c, x, s⟩ t).toList.length := by
      rw [Frame.toList_plug]
      cases side <;> simp [Frame.before, Frame.after]
    have := ih (Frame.plug ⟨side, c, x, s⟩ t)
    rw [plug, length_cons]
    omega

/-- The hole takes a tree of colour `c` and height `n`. -/
def Fits : List (Frame α) → Color → Nat → Prop
  | [], c, _ => c = .black
  | frame :: ctx, c, n =>
    (frame.color = .red → c = .black ∧ frame.sibling.color = .black) ∧
      frame.sibling.Proper n ∧ Fits ctx frame.color (n + frame.color.weight)

theorem Tree.proper_frame {frame : Frame α} :
    (frame.plug t).Proper n ↔ ∃ m, n = m + frame.color.weight ∧
      (frame.color = .red → t.color = .black ∧ frame.sibling.color = .black) ∧
      t.Proper m ∧ frame.sibling.Proper m :=
  Tree.proper_nodeOn

theorem redBlack_plug {ctx : List (Frame α)} :
    (plug ctx t).RedBlack ↔ ∃ n, t.Proper n ∧ Fits ctx t.color n := by
  induction ctx generalizing t with
  | nil =>
    constructor
    · rintro ⟨hroot, n, h⟩
      exact ⟨n, h, hroot⟩
    · rintro ⟨n, h, hroot⟩
      exact ⟨hroot, n, h⟩
  | cons frame ctx ih =>
    rw [plug, ih]
    have hcolor : (frame.plug t).color = frame.color := Tree.color_nodeOn _ _ _ _ _
    rw [hcolor]
    constructor
    · rintro ⟨n, h, hfits⟩
      obtain ⟨m, rfl, hred, ht, hsibling⟩ := Tree.proper_frame.mp h
      exact ⟨m, ht, hred, hsibling, hfits⟩
    · rintro ⟨m, ht, hred, hsibling, hfits⟩
      exact ⟨m + frame.color.weight, Tree.proper_frame.mpr ⟨m, rfl, hred, ht, hsibling⟩, hfits⟩

theorem Tree.RedBlack.paint (h : t.RedBlack) : (t.paint .black).RedBlack := by
  rwa [← h.root, Tree.paint_color]

theorem Fits.black {ctx : List (Frame α)} {c : Color} (h : Fits ctx c n) : Fits ctx .black n := by
  cases ctx with
  | nil => rfl
  | cons frame ctx => exact ⟨fun hred => ⟨rfl, (h.1 hred).2⟩, h.2⟩

/-! ## Directions -/

/-- The values of a tree on the way to one side. -/
def Tree.towards (side : Side) (t : Tree α) : List α :=
  match side with
  | .left => t.toList.reverse
  | .right => t.toList

/-- The values beyond a hole on the way to one side. -/
def beyond (side : Side) (ctx : List (Frame α)) : List α :=
  match side with
  | .left => (before ctx).reverse
  | .right => after ctx

@[simp] theorem Tree.towards_nil (side : Side) : (nil : Tree α).towards side = [] := by
  cases side <;> rfl

theorem Tree.towards_nodeOn (side : Side) (c : Color) (near far : Tree α) (x : α) :
    (nodeOn side c near x far).towards side = far.towards side ++ x :: near.towards side := by
  cases side <;> simp [towards, nodeOn, toList]

theorem Tree.length_towards (side : Side) (t : Tree α) :
    (t.towards side).length = t.toList.length := by
  cases side <;> simp [towards]

theorem Tree.mem_towards {side : Side} {x : α} : x ∈ t.towards side ↔ x ∈ t.toList := by
  cases side <;> simp [towards]

theorem Tree.towards_ne_nil (side : Side) {x : α} (h : t.top = some x) : t.towards side ≠ [] :=
  ne_nil_of_mem (mem_towards.mpr (top_mem h))

theorem Tree.nodup_towards {side : Side} : (t.towards side).Nodup ↔ t.toList.Nodup := by
  cases side with
  | left => exact nodup_reverse
  | right => rfl

section

variable (side : Side) (c : Color) (x : α) (s : Tree α) (ctx : List (Frame α))

/-- A hole on that side of its frame. -/
theorem beyond_cons_near : beyond side (⟨side, c, x, s⟩ :: ctx) = beyond side ctx := by
  cases side <;> simp [beyond, before, after, Frame.before, Frame.after]

/-- A hole on the other side of its frame. -/
theorem beyond_cons_far :
    beyond side (⟨side.other, c, x, s⟩ :: ctx) = x :: (s.towards side ++ beyond side ctx) := by
  cases side <;> simp [beyond, before, after, Frame.before, Frame.after, Tree.towards, Side.other]

end

theorem towards_plug (side : Side) (ctx : List (Frame α)) (t : Tree α) : (plug ctx t).towards side =
      (beyond side.other ctx).reverse ++ (t.towards side ++ beyond side ctx) := by
  cases side <;> simp [Tree.towards, beyond, toList_plug, Side.other]

/-- A tree, one child of each node before the other. -/
theorem Tree.inductionOn (side : Side) {motive : Tree α → Prop} (nil : motive .nil)
    (nodeOn : ∀ c near x far, motive near → motive far → motive (nodeOn side c near x far))
    (t : Tree α) : motive t := by
  induction t with
  | nil => exact nil
  | node c l x r ihl ihr =>
    cases side with
    | left => exact nodeOn c l x r ihl ihr
    | right => exact nodeOn c r x l ihr ihl

/-! ## The first value -/

/-- The first value of a tree, with the tree on its right. -/
def Tree.first : Tree α → Option (α × Tree α)
  | .nil => none
  | .node _ l x r => l.first.orElse fun _ => some (x, r)

theorem Tree.first_eq_none : t.first = none ↔ t = .nil := by
  cases t with
  | nil => simp [Tree.first]
  | node c l x r => cases h : l.first <;> simp [Tree.first, h]

theorem Tree.first_node {l : Tree α} (hl : l ≠ .nil) (c : Color) (x : α) (r : Tree α) :
    (Tree.node c l x r).first = l.first := by
  obtain ⟨y, hy⟩ := ne_none_iff_exists'.mp fun h => hl (first_eq_none.mp h)
  rw [first, hy]
  rfl

theorem Tree.first_paint (c : Color) (t : Tree α) : (t.paint c).first = t.first := by
  cases t <;> rfl

/-- On the left edge of a tree. -/
def Leftmost (ctx : List (Frame α)) : Prop := ∀ frame ∈ ctx, frame.side = .left

theorem leftmost_of_before {ctx : List (Frame α)} (h : before ctx = []) : Leftmost ctx := by
  induction ctx with
  | nil => exact nofun
  | cons frame ctx ih =>
    obtain ⟨side, c, x, s⟩ := frame
    obtain ⟨hctx, hframe⟩ := append_eq_nil_iff.mp h
    rintro frame' (_ | ⟨_, hmem⟩)
    · cases side with
      | left => rfl
      | right => simp [Frame.before] at hframe
    · exact ih hctx frame' hmem

theorem first_plug {ctx : List (Frame α)} (h : Leftmost ctx) (ht : t ≠ .nil) :
    (plug ctx t).first = t.first := by
  induction ctx generalizing t with
  | nil => rfl
  | cons frame ctx ih =>
    obtain ⟨side, c, x, s⟩ := frame
    obtain rfl : side = .left := h _ mem_cons_self
    have hne : Frame.plug ⟨.left, c, x, s⟩ t ≠ .nil := Tree.nodeOn_ne_nil .left c t s x
    rw [plug, ih (fun f hf => h f (mem_cons_of_mem _ hf)) hne]
    exact Tree.first_node ht c x s

/-- A first value with nothing on its right hangs under the second. -/
theorem exists_second {x y : α} {rest : List α} (hlist : t.toList = x :: y :: rest)
    (hfirst : t.first = some (x, .nil)) :
    ∃ ctx c c' r, t = plug ctx (.node c (.node c' .nil x .nil) y r) := by
  suffices hctx : ∀ outer, ∃ ctx c c' r,
      plug outer t = plug ctx (.node c (.node c' .nil x .nil) y r) from hctx []
  induction t generalizing rest with
  | nil => cases hlist
  | node c l z r ih _ =>
    intro outer
    cases l with
    | nil =>
      obtain ⟨-, rfl⟩ := Prod.mk.inj (some.inj hfirst)
      simp [Tree.toList] at hlist
    | node c' l' w r' =>
      rw [Tree.first_node (by simp)] at hfirst
      cases hl : (Tree.node c' l' w r').toList with
      | nil => simp [Tree.toList] at hl
      | cons x' tail =>
        rw [Tree.toList, hl, List.cons_append, List.cons.injEq] at hlist
        obtain ⟨rfl, hlist⟩ := hlist
        cases tail with
        | cons y' rest' =>
          obtain ⟨rfl, -⟩ := List.cons.inj hlist
          exact ih hl hfirst (⟨.left, c, z, r⟩ :: outer)
        | nil =>
          obtain ⟨rfl, -⟩ := List.cons.inj hlist
          obtain ⟨hl', rfl, hr'⟩ : l'.toList = [] ∧ w = x' ∧ r'.toList = [] := by
            simpa [Tree.toList, append_eq_singleton_iff] using hl
          rw [Tree.toList_eq_nil] at hl' hr'
          exact ⟨outer, c, c', r, by rw [hl', hr']⟩

end Literate.Foundation
