import Literate.AK.RedBlackFixups
import Literate.AK.RedBlackInsert

/-!
# AK: removal from a red-black tree

`remove` keeps the red-black invariants where the place that it empties can do without the node,
and nowhere else.
-/

namespace Literate.AK

open Foundation List Option

/-! ## The place that a removal empties -/

variable {P : Type}

/-- The place of the first node of a tree, its colour and its right subtree. -/
def firstPlace : List (Frame P) → Tree P → List (Frame P) × Color × Tree P
  | ctx, .nil => (ctx, .black, .nil)
  | ctx, .node c .nil _ r => (ctx, c, r)
  | ctx, .node c (.node c' l p r) q r' => firstPlace (⟨.left, c, q, r'⟩ :: ctx) (.node c' l p r)

/-- The place that is empty when a node has been removed, the colour that it loses and what is put
there: a node with two children changes places with its successor. -/
def emptied (ctx : List (Frame P)) (c : Color) (l : Tree P) (node : P) (r : Tree P) :
    List (Frame P) × Color × Tree P :=
  match l, r with
  | .nil, r => (ctx, c, r)
  | .node c' l p r', .nil => (ctx, c, .node c' l p r')
  | .node c' l p r', .node c'' l' q r'' =>
    firstPlace (⟨.right, c, node, .node c' l p r'⟩ :: ctx) (.node c'' l' q r'')

/-- A place can do without a red node, and without a black one where a red one takes its place or
where the fixups fill it. -/
def Spares (place : List (Frame P) × Color × Tree P) : Prop :=
  place.2.1 = .red ∨ place.2.2.color = .red ∨ Refillable place.1

/-- Where `remove` works. -/
def Removable (t : Tree P) (node : P) : Prop :=
  ∃ ctx c l r, t = plug ctx (.node c l node r) ∧ Spares (emptied ctx c l node r)

theorem exists_firstPlace {t : Tree P} (ht : t ≠ .nil) (ctx : List (Frame P)) :
    ∃ lower c x r, Leftmost lower ∧ t = plug lower (.node c .nil x r) ∧
      firstPlace ctx t = (lower ++ ctx, c, r) := by
  induction t generalizing ctx with
  | nil => exact absurd rfl ht
  | node c l x r ih _ =>
    cases l with
    | nil => exact ⟨[], c, x, r, nofun, rfl, rfl⟩
    | node c' l' y r' =>
      obtain ⟨lower, c₁, x₁, r₁, hleftmost, hplug, hfirst⟩ :=
        ih (by simp) (⟨.left, c, x, r⟩ :: ctx)
      refine ⟨lower ++ [⟨.left, c, x, r⟩], c₁, x₁, r₁, ?_, ?_, ?_⟩
      · intro frame hframe
        rcases mem_append.mp hframe with hmem | hmem
        · exact hleftmost frame hmem
        · rw [mem_singleton.mp hmem]
      · rw [plug_append, ← hplug]
        rfl
      · rw [firstPlace, hfirst, List.append_assoc, singleton_append]

theorem refillable_value (lower ctx : List (Frame P)) (side : Side) (c : Color) (p q : P)
    (s : Tree P) :
    Refillable (lower ++ ⟨side, c, p, s⟩ :: ctx) ↔ Refillable (lower ++ ⟨side, c, q, s⟩ :: ctx) := by
  induction lower with
  | nil => cases side <;> rfl
  | cons frame lower ih =>
    obtain ⟨side', c', x, s'⟩ := frame
    cases side' with
    | left => rfl
    | right => simp only [List.cons_append, Refillable, ih]

namespace BaseRedBlackTree

variable {K : Type} [DecidableEq P]

variable {tree tree' : BaseRedBlackTree P K} {ctx : List (Frame P)} {side : Side} {c : Color}
  {t : Tree P} {p : P} {fuel n : Nat}

/-! ## Taking a node out -/

omit [DecidableEq P] in
theorem proper_only {side : Side} {c : Color} {t : Tree P} {p : P} {n : Nat}
    (h : (Tree.nodeOn side c t p .nil).Proper n) : t.Proper 0 ∧ n = c.weight ∧
      (c = .red → t.color = .black) := by
  obtain ⟨m, rfl, hred, ht, hnil⟩ := Tree.proper_nodeOn.mp h
  obtain rfl : m = 0 := hnil.height
  exact ⟨ht, Nat.zero_add _, fun hc => (hred hc).1⟩

theorem unlink_spares (h : tree.Holds (plug ctx (.nodeOn side c t p .nil)))
    (hredBlack : (plug ctx (.nodeOn side c t p .nil)).RedBlack) (hne : plug ctx t ≠ .nil)
    (hspares : Spares (ctx, c, t)) (hfuel : ctx.length < fuel) :
    ∃ tree' t', unlink fuel tree p = some tree' ∧ tree'.Holds t' ∧ t'.RedBlack ∧
      t'.toList = (plug ctx t).toList ∧ Relinked (plug ctx t).toList tree tree' := by
  obtain ⟨n, hproper, hfits⟩ := redBlack_plug.mp hredBlack
  obtain ⟨ht, rfl, hred⟩ := proper_only hproper
  rw [Tree.color_nodeOn] at hfits
  have hsplice := h.splice
  have hrelinked := relinked_splice tree ctx t p
  rw [unlink_eq h]
  cases c with
  | red =>
    rw [if_pos rfl]
    refine ⟨_, _, rfl, hsplice, redBlack_plug.mpr ⟨0, ht, ?_⟩, rfl, hrelinked⟩
    rw [hred rfl]
    exact hfits.black
  | black =>
    rw [if_neg nofun]
    have hend : ∃ tree' t', removeFixups fuel (tree.splice (parentOf ctx) p t.top) t.top
        (parentOf ctx) = some tree' ∧
        Rearranged (tree.splice (parentOf ctx) p t.top) tree' (plug ctx t) t' ∧ t'.RedBlack := by
      by_cases hcolor : t.color = .red
      · obtain ⟨fuel, rfl⟩ := Nat.exists_eq_succ_of_ne_zero (Nat.ne_of_gt (Nat.zero_lt_of_lt hfuel))
        exact removeFixups_red hsplice hcolor (ht.paint_of_red hcolor) hfits fuel (parentOf ctx)
      · have hrefillable := (hspares.resolve_left nofun).resolve_left hcolor
        exact removeFixups_refills ctx hsplice hne (Color.eq_black_of_ne_red hcolor) ht hfits
          hrefillable hfuel
    obtain ⟨tree', t', hfixups, h', hredBlack'⟩ := hend
    exact ⟨tree', t', hfixups, h'.holds, hredBlack', h'.list, hrelinked.trans h'.relinked⟩

theorem unlink_fails (h : tree.Holds (plug ctx (.nodeOn side c t p .nil)))
    (hredBlack : (plug ctx (.nodeOn side c t p .nil)).RedBlack) (hspares : ¬ Spares (ctx, c, t))
    (hunlink : unlink fuel tree p = some tree') : ∀ t', tree'.Holds t' → ¬ t'.RedBlack := by
  obtain ⟨n, hproper, hfits⟩ := redBlack_plug.mp hredBlack
  obtain ⟨ht, rfl, -⟩ := proper_only hproper
  rw [Tree.color_nodeOn] at hfits
  simp only [Spares, not_or] at hspares
  obtain ⟨hc, hcolor, hrefillable⟩ := hspares
  rw [unlink_eq h, if_neg hc] at hunlink
  obtain rfl : c = .black := Color.eq_black_of_ne_red hc
  exact removeFixups_fails ctx h.splice (Color.eq_black_of_ne_red hcolor) ht hfits hrefillable hunlink

theorem erase_middle {before after : List P} (h : (before ++ p :: after).Nodup) :
    (before ++ p :: after).erase p = before ++ after := by
  have hp : p ∉ before := fun hp => (nodup_append'.mp h).2.2 hp mem_cons_self
  rw [erase_append_right _ hp, erase_cons_head]

/-- The nodes when the place of one is taken by its only child. -/
theorem toList_plug_only (h : (plug ctx (.nodeOn side c t p .nil)).toList.Nodup) :
    (plug ctx t).toList = (plug ctx (.nodeOn side c t p .nil)).toList.erase p := by
  have hlist : (Tree.nodeOn side c t p .nil).toList = t.toList ++ [p] ∨
      (Tree.nodeOn side c t p .nil).toList = p :: t.toList := by
    cases side with
    | left => exact .inl rfl
    | right => exact .inr rfl
  rw [toList_plug] at h
  simp only [toList_plug]
  rcases hlist with hlist | hlist
  · rw [hlist, List.append_assoc, singleton_append,
      ← List.append_assoc (before ctx) t.toList (p :: after ctx)] at h ⊢
    rw [erase_middle h, List.append_assoc]
  · rw [hlist, List.cons_append] at h ⊢
    rw [erase_middle h]

theorem passChildren_two {l r : Tree P} (h : tree.Holds (plug ctx (.node c l p r))) (hl : l ≠ .nil)
    (hr : r ≠ .nil) (hfuel : (plug ctx (.node c l p r)).toList.length < fuel) :
    ∃ lower cs s rs, r = plug lower (.node cs .nil s rs) ∧ Leftmost lower ∧
      emptied ctx c l p r = (lower ++ ⟨.right, c, p, l⟩ :: ctx, cs, rs) ∧
      passChildren fuel tree p = some (tree.relink p s) := by
  obtain ⟨lower, cs, s, rs, hleftmost, hplug, hfirst⟩ := exists_firstPlace hr (⟨.right, c, p, l⟩ :: ctx)
  refine ⟨lower, cs, s, rs, hplug, hleftmost, ?_, ?_⟩
  · cases l with
    | nil => exact absurd rfl hl
    | node c' l' x r' =>
      cases r with
      | nil => exact absurd rfl hr
      | node c'' l'' y r'' => exact hfirst
  · obtain ⟨-, -, hleft, hright⟩ := @Holds.at_node _ _ tree ctx .left c l r p h
    have hleft' : (tree.nodes p).leftChild = l.top := hleft
    have hright' : (tree.nodes p).rightChild = r.top := hright
    have hboth : (tree.nodes p).leftChild ≠ none ∧ (tree.nodes p).rightChild ≠ none := by
      rw [hleft', hright']
      exact ⟨mt Tree.top_eq_none.mp hl, mt Tree.top_eq_none.mp hr⟩
    have hplace : tree.Holds (plug ctx (.nodeOn .right c r p l)) := h
    have hnext := neighbour_spec .right hplace hfuel
    have hhead : (r.towards .right ++ beyond .right ctx).head? = some s := by
      rw [Tree.towards, hplug, toList_plug, before_of_leftmost hleftmost]
      rfl
    rw [passChildren, if_pos hboth, successor_eq, hnext, hhead]
    rfl

/-- A node that `remove` takes out has at most one child then. -/
theorem passChildren_spec {l r : Tree P} (h : tree.Holds (plug ctx (.node c l p r)))
    (hredBlack : (plug ctx (.node c l p r)).RedBlack)
    (hfuel : (plug ctx (.node c l p r)).toList.length < fuel) :
    ∃ tree₁ ctx' side c' t', passChildren fuel tree p = some tree₁ ∧
      tree₁.Holds (plug ctx' (.nodeOn side c' t' p .nil)) ∧
      (plug ctx' (.nodeOn side c' t' p .nil)).RedBlack ∧
      (plug ctx' t').toList = (plug ctx (.node c l p r)).toList.erase p ∧
      (Spares (ctx', c', t') ↔ Spares (emptied ctx c l p r)) ∧
      Relinked (plug ctx (.node c l p r)).toList tree tree₁ ∧
      ctx'.length < (plug ctx (.node c l p r)).toList.length := by
  obtain ⟨-, -, hleft, hright⟩ := @Holds.at_node _ _ tree ctx .left c l r p h
  have hleft' : (tree.nodes p).leftChild = l.top := hleft
  have hright' : (tree.nodes p).rightChild = r.top := hright
  have hlength := length_le_length_plug ctx (.node c l p r)
  rw [Tree.toList, length_append, length_cons] at hlength
  by_cases hl : l = .nil
  · subst hl
    have hone : ¬ ((tree.nodes p).leftChild ≠ none ∧ (tree.nodes p).rightChild ≠ none) := by
      rw [hleft']
      exact fun hboth => hboth.1 rfl
    refine ⟨tree, ctx, .right, c, r, if_neg hone, h, hredBlack, ?_, Iff.rfl, Relinked.refl _ _, by omega⟩
    exact @toList_plug_only _ _ ctx .right c r p h.nodup
  by_cases hr : r = .nil
  · subst hr
    have hone : ¬ ((tree.nodes p).leftChild ≠ none ∧ (tree.nodes p).rightChild ≠ none) := by
      rw [hright']
      exact fun hboth => hboth.2 rfl
    refine ⟨tree, ctx, .left, c, l, if_neg hone, h, hredBlack, ?_, ?_, Relinked.refl _ _, by omega⟩
    · exact @toList_plug_only _ _ ctx .left c l p h.nodup
    · cases l with
      | nil => exact absurd rfl hl
      | node c' l' x r' => rfl
  obtain ⟨lower, cs, s, rs, rfl, hleftmost, hemptied, hpass⟩ := passChildren_two h hl hr hfuel
  have hplace : plug ctx (.node c l p (plug lower (.node cs .nil s rs))) =
      plug (lower ++ ⟨.right, c, p, l⟩ :: ctx) (.node cs .nil s rs) := by
    rw [plug_append]
    rfl
  rw [hplace] at h hredBlack ⊢
  refine ⟨_, lower ++ ⟨.right, c, s, l⟩ :: ctx, .right, cs, rs, hpass, h.relink, ?_, ?_, ?_,
    relinked_relink (exchangeable_plug h), ?_⟩
  · obtain ⟨n, hproper, hfits⟩ := redBlack_plug.mp hredBlack
    refine redBlack_plug.mpr ⟨n, ?_, (fits_value lower ctx .right c p s l cs n).mp hfits⟩
    exact (@Tree.proper_nodeOn _ .right cs rs .nil p n).mpr
      ((@Tree.proper_nodeOn _ .right cs rs .nil s n).mp hproper)
  · have hbefore : ∀ x, before (lower ++ ⟨.right, c, x, l⟩ :: ctx) = before ctx ++ l.toList ++ [x] := by
      intro x
      rw [before_append, before_of_leftmost hleftmost, append_nil, before, Frame.before,
        List.append_assoc]
    have hafter : ∀ x, after (lower ++ ⟨.right, c, x, l⟩ :: ctx) = after lower ++ after ctx :=
      fun x => after_append lower (⟨.right, c, x, l⟩ :: ctx)
    have hlist : (plug (lower ++ ⟨.right, c, p, l⟩ :: ctx) (.node cs .nil s rs)).toList =
        before ctx ++ l.toList ++ p :: s :: (rs.toList ++ (after lower ++ after ctx)) := by
      rw [toList_plug, hbefore, hafter, List.append_assoc]
      rfl
    have hnodup := h.nodup
    rw [hlist] at hnodup ⊢
    rw [erase_middle hnodup, toList_plug, hbefore, hafter, List.append_assoc]
    rfl
  · simp only [hemptied, Spares, refillable_value lower ctx .right c s p l]
  · have hlength' := length_le_length_plug (lower ++ ⟨.right, c, p, l⟩ :: ctx) (.node cs .nil s rs)
    rw [Tree.toList, length_append, length_cons] at hlength'
    rw [length_append, length_cons] at hlength' ⊢
    omega

variable {l r : Tree P}

/-- `m_minimum` is the first node of those that stay. -/
theorem passMinimum_spec (h : tree.Holds (plug ctx (.node c l p r)))
    (hminimum : tree.minimum = (plug ctx (.node c l p r)).toList.head?)
    (hfuel : (plug ctx (.node c l p r)).toList.length < fuel) : passMinimum fuel tree p =
      some { tree with minimum := ((plug ctx (.node c l p r)).toList.erase p).head? } := by
  have hplace : tree.Holds (plug ctx (.nodeOn .right c r p l)) := h
  have hlist : (plug ctx (.node c l p r)).toList =
      before ctx ++ l.toList ++ p :: (r.toList ++ after ctx) := by
    rw [toList_plug, Tree.toList]
    simp
  have hnodup := h.nodup
  rw [passMinimum]
  rw [hlist] at hnodup hminimum ⊢
  rw [erase_middle hnodup]
  cases hbefore : before ctx ++ l.toList with
  | nil =>
    have hfirst : tree.minimum = some p := by
      rw [hminimum, hbefore]
      rfl
    rw [if_pos hfirst, successor_eq, neighbour_spec .right hplace hfuel]
    rfl
  | cons x rest =>
    rw [hbefore] at hnodup hminimum
    have hne : ¬ tree.minimum = some p := by
      intro hfirst
      obtain rfl := some.inj (hminimum.symm.trans hfirst)
      exact (nodup_cons.mp hnodup).1 (mem_append_right _ mem_cons_self)
    have hsame : (x :: rest ++ (r.toList ++ after ctx)).head? = tree.minimum := hminimum.symm
    rw [if_neg hne, hsame]

omit [DecidableEq P] in
theorem eq_leaf (hlength : (plug ctx (.node c l p r)).toList.length = 1) :
    ctx = [] ∧ l = .nil ∧ r = .nil := by
  have hle := length_le_length_plug ctx (.node c l p r)
  rw [Tree.toList, length_append, length_cons] at hle
  refine ⟨eq_nil_of_length_eq_zero (by omega), ?_, ?_⟩
  · exact Tree.toList_eq_nil.mp (eq_nil_of_length_eq_zero (by omega))
  · exact Tree.toList_eq_nil.mp (eq_nil_of_length_eq_zero (by omega))

section

variable [LinearOrder K]

theorem remove_eq (h : tree.Valid (plug ctx (.node c l p r)))
    (hlength : (plug ctx (.node c l p r)).toList.length ≠ 1)
    (hfuel : (plug ctx (.node c l p r)).toList.length < fuel) :
    ∃ tree₁ ctx' side c' t', remove fuel tree p =
        (unlink fuel tree₁ p).map (fun tree => { tree with size := tree.size - 1 }) ∧
      tree₁.Holds (plug ctx' (.nodeOn side c' t' p .nil)) ∧
      (plug ctx' (.nodeOn side c' t' p .nil)).RedBlack ∧
      (plug ctx' t').toList = (plug ctx (.node c l p r)).toList.erase p ∧
      (Spares (ctx', c', t') ↔ Spares (emptied ctx c l p r)) ∧
      Relinked (plug ctx (.node c l p r)).toList
        { tree with minimum := ((plug ctx (.node c l p r)).toList.erase p).head? } tree₁ ∧
      ctx'.length < fuel := by
  have hminimum := passMinimum_spec h.holds h.minimum hfuel
  obtain ⟨tree₁, ctx', side, c', t', hpass, hholds, hredBlack, hlist, hspares, hrelinked, hctx⟩ :=
    @passChildren_spec _ _ _ { tree with minimum := ((plug ctx (.node c l p r)).toList.erase p).head? }
      ctx c p fuel l r ⟨h.holds.owns, h.holds.root, h.holds.nodup⟩ h.redBlack hfuel
  refine ⟨tree₁, ctx', side, c', t', ?_, hholds, hredBlack, hlist, hspares, hrelinked, by omega⟩
  have hsize : ¬ tree.size = 1 := by rwa [h.size]
  simp only [remove, if_neg hsize, hminimum, bind_some, hpass]

/-- `remove` of a node whose place can do without it. -/
theorem remove_valid (h : tree.Valid t) (hremovable : Removable t p) (hfuel : t.toList.length < fuel) :
    ∃ tree' t', remove fuel tree p = some tree' ∧ tree'.Valid t' ∧ t'.toList = t.toList.erase p ∧
      (∀ x, (tree'.nodes x).key = (tree.nodes x).key) ∧
      ∀ x ∉ t.toList, tree'.nodes x = tree.nodes x := by
  obtain ⟨ctx, c, l, r, rfl, hspares⟩ := hremovable
  by_cases hlength : (plug ctx (.node c l p r)).toList.length = 1
  · obtain ⟨rfl, rfl, rfl⟩ := eq_leaf hlength
    refine ⟨{ tree with root := none, minimum := none, size := 0 }, .nil, ?_, ?_, ?_, fun _ => rfl,
      fun _ _ => rfl⟩
    · rw [remove, if_pos (h.size.trans hlength)]
    · exact ⟨⟨trivial, rfl, nodup_nil⟩, ⟨rfl, 0, Tree.proper_nil⟩, List.Pairwise.nil, rfl, rfl⟩
    · simp [plug, Tree.toList]
  obtain ⟨tree₁, ctx', side, c', t', hremove, hholds, hredBlack, hlist, hspares', hrelinked, hctx⟩ :=
    remove_eq h hlength hfuel
  have hmem : p ∈ (plug ctx (.node c l p r)).toList := by
    rw [toList_plug]
    simp [Tree.toList]
  have hshorter := length_erase_of_mem hmem
  have hne : plug ctx' t' ≠ .nil := by
    intro hnil
    rw [hnil] at hlist
    rw [← hlist] at hshorter
    have hpos := length_pos_of_mem hmem
    simp only [Tree.toList, length_nil] at hshorter
    omega
  obtain ⟨tree₂, t₂, hunlink, h₂, hredBlack₂, hlist₂, hrelinked₂⟩ :=
    unlink_spares hholds hredBlack hne (hspares'.mpr hspares) hctx
  have hsub : ∀ x ∈ (plug ctx' t').toList, x ∈ (plug ctx (.node c l p r)).toList := by
    rw [hlist]
    exact fun x hx => mem_of_mem_erase hx
  have hall := hrelinked.trans (hrelinked₂.congr hsub)
  have herase : t₂.toList = (plug ctx (.node c l p r)).toList.erase p := hlist₂.trans hlist
  refine ⟨{ tree₂ with size := tree₂.size - 1 }, t₂, ?_, ⟨⟨h₂.owns, h₂.root, h₂.nodup⟩, hredBlack₂,
    ?_, ?_, ?_⟩, herase, hall.key, hall.outside⟩
  · rw [hremove, hunlink]
    rfl
  · simp only [hall.key]
    rw [herase]
    exact h.sorted.sublist erase_sublist
  · rw [herase]
    exact hall.minimum
  · have hsize : tree₂.size = (plug ctx (.node c l p r)).toList.length := hall.size.trans h.size
    rw [hsize, herase, hshorter]

/-- `remove` of a node whose place cannot do without it. -/
theorem remove_fails (h : tree.Valid (plug ctx (.node c l p r)))
    (hspares : ¬ Spares (emptied ctx c l p r))
    (hfuel : (plug ctx (.node c l p r)).toList.length < fuel)
    (hremove : remove fuel tree p = some tree') : ∀ t', ¬ tree'.Valid t' := by
  have hlength : (plug ctx (.node c l p r)).toList.length ≠ 1 := by
    intro hlength
    obtain ⟨rfl, rfl, rfl⟩ := eq_leaf hlength
    exact hspares (.inr (.inr trivial))
  obtain ⟨tree₁, ctx', side, c', t', hremove', hholds, hredBlack, -, hspares', -⟩ :=
    remove_eq h hlength hfuel
  obtain ⟨tree₂, hunlink, rfl⟩ := map_eq_some_iff.mp (hremove'.symm.trans hremove)
  intro t₂ h₂
  exact unlink_fails hholds hredBlack (fun hspares₂ => hspares (hspares'.mp hspares₂)) hunlink t₂
    ⟨h₂.holds.owns, h₂.holds.root, h₂.holds.nodup⟩ h₂.redBlack

/-- Removal of a node ends, keeps the invariants and takes out that node alone, where the place
that it empties can do without it and nowhere else. -/
theorem remove_iff (tree : BaseRedBlackTree P K) (t : Tree P) (node : P) (fuel : Nat)
    (h : tree.Valid t) (hnode : node ∈ t.toList) (hfuel : t.toList.length < fuel) :
    (∃ tree' t', remove fuel tree node = some tree' ∧ tree'.Valid t' ∧
      t'.toList = t.toList.erase node ∧ ∀ x, (tree'.nodes x).key = (tree.nodes x).key) ↔
      Removable t node := by
  constructor
  · rintro ⟨tree', t', hremove, h', -⟩
    obtain ⟨ctx, c, l, r, rfl⟩ := exists_plug hnode
    by_contra hremovable
    have hspares : ¬ Spares (emptied ctx c l node r) := fun hspares =>
      hremovable ⟨ctx, c, l, r, rfl, hspares⟩
    exact remove_fails h hspares hfuel hremove t' h'
  · intro hremovable
    obtain ⟨tree', t', hremove, h', hlist, hkey, -⟩ := remove_valid h hremovable hfuel
    exact ⟨tree', t', hremove, h', hlist, hkey⟩

end

/-- Three black nodes, 1, 2 and 3, with 2 at the root. -/
def threeBlack : BaseRedBlackTree Nat Nat where
  nodes := fun p =>
    if p = 2 then { leftChild := some 1, rightChild := some 3, color := .black, key := 2 }
    else if p = 1 ∨ p = 3 then { parent := some 2, color := .black, key := p }
    else { key := p }
  root := some 2
  size := 3
  minimum := some 1

theorem threeBlack_valid :
    threeBlack.Valid (.node .black (.node .black .nil 1 .nil) 2 (.node .black .nil 3 .nil)) where
  holds := ⟨⟨rfl, rfl, rfl, rfl, ⟨rfl, rfl, rfl, rfl, trivial, trivial⟩,
    rfl, rfl, rfl, rfl, trivial, trivial⟩, rfl, by decide⟩
  redBlack := by
    have hleaf : ∀ p : Nat, (Foundation.Tree.node .black .nil p .nil).Proper 1 := fun p =>
      (@Tree.proper_black _ .left .nil .nil p 0).mpr ⟨Tree.proper_nil, Tree.proper_nil⟩
    exact ⟨rfl, 2, (@Tree.proper_black _ .left _ _ 2 1).mpr ⟨hleaf 1, hleaf 3⟩⟩
  sorted := by decide
  minimum := rfl
  size := rfl

/-- The last of the three can be taken out. -/
theorem remove_iff_three :
    ∃ tree' t', remove 4 threeBlack 3 = some tree' ∧ tree'.Valid t' ∧ t'.toList = [1, 2] ∧
      ∀ x, (tree'.nodes x).key = (threeBlack.nodes x).key :=
  (remove_iff threeBlack _ 3 4 threeBlack_valid (by decide) (by decide)).mpr
    ⟨[⟨.right, .black, 2, .node .black .nil 1 .nil⟩], .black, .nil, .nil, rfl,
      .inr (.inr fun _ _ _ => trivial)⟩

/-- The first of the three cannot: a null is dereferenced. -/
theorem not_remove_first :
    ¬ ∀ (tree : BaseRedBlackTree Nat Nat) (t : Tree Nat) (node fuel : Nat), tree.Valid t →
      node ∈ t.toList → t.toList.length < fuel →
      ∃ tree' t', remove fuel tree node = some tree' ∧ tree'.Valid t' ∧
        t'.toList = t.toList.erase node ∧ ∀ x, (tree'.nodes x).key = (tree.nodes x).key := by
  intro h
  obtain ⟨tree', t', hremove, -⟩ :=
    h threeBlack _ 1 4 threeBlack_valid (by decide) (by decide)
  have hnone : (remove 4 threeBlack 1).isNone = true := by decide
  rw [hremove] at hnone
  cases hnone

end BaseRedBlackTree

end Literate.AK
