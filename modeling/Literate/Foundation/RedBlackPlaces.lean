import Literate.Foundation.RedBlack

/-!
# Foundation: places in red-black trees

What happens to a place when the values of a tree are exchanged, and when one context is put
below another.
-/

namespace Literate.Foundation

open List

variable {α β : Type*}

/-! ## Other values -/

/-- The same tree with other values. -/
def Tree.map (f : α → β) : Tree α → Tree β
  | .nil => .nil
  | .node c l x r => .node c (l.map f) (f x) (r.map f)

theorem Tree.map_nodeOn (f : α → β) (side : Side) (c : Color) (near far : Tree α) (x : α) :
    (nodeOn side c near x far).map f = nodeOn side c (near.map f) (f x) (far.map f) := by
  cases side <;> rfl

theorem Tree.top_map (f : α → β) (t : Tree α) : (t.map f).top = t.top.map f := by
  cases t <;> rfl

theorem Tree.toList_map (f : α → β) (t : Tree α) : (t.map f).toList = t.toList.map f := by
  induction t with
  | nil => rfl
  | node c l x r ihl ihr => simp only [map, toList, ihl, ihr, map_append, map_cons]

variable {f : α → α} {t : Tree α} {ctx : List (Frame α)} {n : Nat}

theorem Tree.map_eq_self (h : ∀ x ∈ t.toList, f x = x) : t.map f = t := by
  induction t with
  | nil => rfl
  | node c l x r ihl ihr =>
    rw [map, ihl fun y hy => h y (by simp [toList, hy]), h x (by simp [toList]),
      ihr fun y hy => h y (by simp [toList, hy])]

def Frame.map (f : α → β) (frame : Frame α) : Frame β :=
  { side := frame.side
    color := frame.color
    value := f frame.value
    sibling := frame.sibling.map f }

theorem map_plug (f : α → β) (ctx : List (Frame α)) (t : Tree α) :
    (plug ctx t).map f = plug (ctx.map (Frame.map f)) (t.map f) := by
  induction ctx generalizing t with
  | nil => rfl
  | cons frame ctx ih => rw [plug, ih, Frame.plug, Tree.map_nodeOn, map_cons, plug]; rfl

theorem map_frames_eq_self (h : ∀ x ∈ values ctx, f x = x) : ctx.map (Frame.map f) = ctx := by
  induction ctx with
  | nil => rfl
  | cons frame ctx ih =>
    have hsibling : frame.sibling.map f = frame.sibling :=
      Tree.map_eq_self fun x hx => h x (by simp [values, hx])
    have hframe : frame.map f = frame := by
      rw [Frame.map, h frame.value (by simp [values]), hsibling]
    rw [map_cons, hframe, ih fun x hx => h x (by simp [values, hx])]

theorem plug_append (ctx ctx' : List (Frame α)) (t : Tree α) :
    plug (ctx ++ ctx') t = plug ctx' (plug ctx t) := by
  induction ctx generalizing t with
  | nil => rfl
  | cons frame ctx ih => exact ih _

theorem values_append (ctx ctx' : List (Frame α)) : values (ctx ++ ctx') = values ctx ++ values ctx' := by
  induction ctx with
  | nil => rfl
  | cons frame ctx ih => simp only [List.cons_append, values, ih, List.append_assoc]

theorem mem_of_parentOf {x : α} (h : parentOf ctx = some x) : x ∈ values ctx := by
  cases ctx with
  | nil => cases h
  | cons frame ctx =>
    rw [← Option.some.inj h]
    exact mem_cons_self

/-- A hole below a frame has a node above it. -/
theorem exists_parentOf_append (lower : List (Frame α)) (frame : Frame α) (ctx : List (Frame α)) :
    ∃ x, parentOf (lower ++ frame :: ctx) = some x ∧ (x ∈ values lower ∨ x = frame.value) := by
  cases lower with
  | nil => exact ⟨frame.value, rfl, .inr rfl⟩
  | cons frame' lower => exact ⟨frame'.value, rfl, .inl mem_cons_self⟩

theorem before_append (ctx ctx' : List (Frame α)) : before (ctx ++ ctx') = before ctx' ++ before ctx := by
  induction ctx with
  | nil => rw [nil_append, before, append_nil]
  | cons frame ctx ih => simp only [List.cons_append, before, ih, List.append_assoc]

theorem after_append (ctx ctx' : List (Frame α)) : after (ctx ++ ctx') = after ctx ++ after ctx' := by
  induction ctx with
  | nil => rfl
  | cons frame ctx ih => rw [List.cons_append, after, ih, after, List.append_assoc]

theorem before_of_leftmost (h : Leftmost ctx) : before ctx = [] := by
  induction ctx with
  | nil => rfl
  | cons frame ctx ih =>
    obtain ⟨side, c, x, s⟩ := frame
    obtain rfl : side = .left := h _ mem_cons_self
    rw [before, ih fun f hf => h f (mem_cons_of_mem _ hf)]
    rfl

theorem fits_value (lower ctx : List (Frame α)) (side : Side) (c : Color) (x y : α) (s : Tree α)
    (c' : Color) (n : Nat) :
    Fits (lower ++ ⟨side, c, x, s⟩ :: ctx) c' n ↔ Fits (lower ++ ⟨side, c, y, s⟩ :: ctx) c' n := by
  induction lower generalizing c' n with
  | nil => rfl
  | cons frame lower ih => simp only [List.cons_append, Fits, ih]

/-! ## Heights -/

/-- All paths down from a root meet as many black nodes, whatever its colour. -/
theorem Tree.exists_hasHeight_paint {c : Color} (h : ∃ n, (t.paint c).HasHeight n) :
    ∃ n, t.HasHeight n := by
  obtain ⟨n, h⟩ := h
  cases t with
  | nil => exact ⟨n, h⟩
  | node c' l x r =>
    obtain ⟨m, -, hl, hr⟩ := h
    exact ⟨m + c'.weight, m, rfl, hl, hr⟩

theorem exists_hasHeight_of_plug (h : ∃ n, (plug ctx t).HasHeight n) : ∃ n, t.HasHeight n := by
  induction ctx generalizing t with
  | nil => exact h
  | cons frame ctx ih =>
    obtain ⟨n, hframe⟩ := ih h
    obtain ⟨m, -, ht, -⟩ := Tree.hasHeight_nodeOn.mp hframe
    exact ⟨m, ht⟩

theorem Tree.exists_nodeOn_of_proper (side : Side) (h : t.Proper (n + 1)) :
    ∃ c near x far, t = .nodeOn side c near x far := by
  cases t with
  | nil => cases h.height
  | node c l x r =>
    obtain ⟨near, far, hnode⟩ := exists_nodeOn side c l x r
    exact ⟨c, near, x, far, hnode⟩

theorem Tree.exists_nodeOn_black (side : Side) (h : t.Proper (n + 1)) (hblack : t.color = .black) :
    ∃ near x far, t = .nodeOn side .black near x far ∧ near.Proper n ∧ far.Proper n := by
  obtain ⟨c, near, x, far, rfl⟩ := exists_nodeOn_of_proper side h
  rw [color_nodeOn] at hblack
  subst hblack
  exact ⟨near, x, far, rfl, proper_black.mp h⟩

theorem plug_ne_nil (ctx : List (Frame α)) (ht : t ≠ .nil) : plug ctx t ≠ .nil := by
  induction ctx generalizing t with
  | nil => exact ht
  | cons frame ctx ih => exact ih (Tree.nodeOn_ne_nil frame.side frame.color t frame.sibling frame.value)

end Literate.Foundation
