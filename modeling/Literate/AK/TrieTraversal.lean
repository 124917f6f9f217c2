import Literate.AK.Trie
import Literate.Foundation.Machine
import Mathlib.Data.List.Basic

/-!
# AK: the traversal of a trie

`for_each_node_in_tree_order` keeps a stack of iterators into the maps of children, one for
every node on the way to the current one, each with a flag that is set once the first child
has been given out.  What it visits is the tree in preorder; `deep_copy` rebuilds it map by
map.
-/

namespace Literate.AK

open Foundation List

inductive IterationDecision where
  | continues
  | breaks
  deriving DecidableEq

namespace Trie

variable {ν M σ : Type}

/-- `State`: the children from the iterator on; none are left at the end. -/
structure State (ν M : Type) where
  didGenerateRoot : Bool
  it : List (ν × Trie ν M)

/-- `skip_to_next_iterator`, and `pop_and_get_next_iterator` where no child is left, on the
states from the last on: the states, and the current node unless it is null. -/
def skipToNextIterator : List (State ν M) → List (State ν M) × Option (Trie ν M)
  | [] => ([], none)
  | current :: state =>
    match if current.didGenerateRoot then current.it.tail else current.it with
    | [] => skipToNextIterator state
    | (key, node) :: it =>
      (⟨false, node.mChildren⟩ :: ⟨true, (key, node) :: it⟩ :: state, some node)

/-- A pass of the loop.  The callback, which may fail, works on a state of its own. -/
def forEachPass (callback : σ → Trie ν M → Option (σ × IterationDecision)) :
    (List (State ν M) × Option (Trie ν M)) × σ →
      Outcome ((List (State ν M) × Option (Trie ν M)) × σ) (Option σ)
  | ((_, none), s) => .done (some s)
  | ((state, some node), s) =>
    match callback s node with
    | none => .done none
    | some (s, .breaks) => .done (some s)
    | some (s, .continues) => .next (skipToNextIterator state, s)

/-- `for_each_node_in_tree_order`, in at most `fuel` passes. -/
def forEachNodeInTreeOrder (callback : σ → Trie ν M → Option (σ × IterationDecision)) (fuel : Nat)
    (root : Trie ν M) (s : σ) : Option (Option σ) :=
  runFor (forEachPass callback) fuel (([⟨false, root.mChildren⟩], some root), s)

mutual

/-- `deep_copy`.  A map may depend on the node that is copied into its owner. -/
def deepCopy (maps : Trie ν M → ChildrenMap ν M) : Trie ν M → Trie ν M
  | mk value metadata children =>
    mk value metadata (copyChildren maps (maps (mk value metadata children)) children [])

def copyChildren (maps : Trie ν M → ChildrenMap ν M) (map : ChildrenMap ν M) :
    List (ν × Trie ν M) → List (ν × Trie ν M) → List (ν × Trie ν M)
  | [], copied => copied
  | (key, child) :: rest, copied =>
    copyChildren maps map rest (map.trySet copied (key, deepCopy maps child))

end

/-! ### Preorder -/

mutual

/-- The nodes of a tree and the paths to them, each before those below it. -/
def preorder : Trie ν M → List (List ν × Trie ν M)
  | mk value metadata children => ([], mk value metadata children) :: preorderBelow children

def preorderBelow : List (ν × Trie ν M) → List (List ν × Trie ν M)
  | [] => []
  | (key, child) :: rest =>
    (preorder child).map (fun entry => (key :: entry.1, entry.2)) ++ preorderBelow rest

end

/-- Induction on a tree: a property that a node has if its children do holds of every node. -/
theorem induct {motive : Trie ν M → Prop}
    (h : ∀ node : Trie ν M, (∀ entry ∈ node.mChildren, motive entry.2) → motive node)
    (root : Trie ν M) : motive root :=
  @Trie.rec ν M motive (fun children => ∀ entry ∈ children, motive entry.2)
    (fun entry => motive entry.2) (fun value metadata children hchildren =>
      h (mk value metadata children) hchildren)
    (fun _ hmem => nomatch hmem)
    (fun _ _ hfirst hrest => forall_mem_cons.mpr ⟨hfirst, hrest⟩) (fun _ _ hchild => hchild) root

theorem preorderBelow_eq (children : List (ν × Trie ν M)) :
    preorderBelow children = children.flatMap fun entry =>
      (preorder entry.2).map fun below => (entry.1 :: below.1, below.2) := by
  induction children with
  | nil => rw [preorderBelow, flatMap_nil]
  | cons entry rest ih => rw [preorderBelow, ih, flatMap_cons]

theorem preorder_eq (node : Trie ν M) :
    preorder node = ([], node) :: preorderBelow node.mChildren := by
  cases node
  rw [preorder, mChildren]

section Visits

/-- The nodes that a stack of iterators has yet to give out. -/
def pending : List (State ν M) → List (Trie ν M)
  | [] => []
  | current :: state =>
    (preorderBelow (if current.didGenerateRoot then current.it.tail else current.it)).map
      Prod.snd ++ pending state

theorem map_snd_preorderBelow_cons (key : ν) (node : Trie ν M) (rest : List (ν × Trie ν M)) :
    (preorderBelow ((key, node) :: rest)).map Prod.snd =
      node :: ((preorderBelow node.mChildren).map Prod.snd ++
        (preorderBelow rest).map Prod.snd) := by
  rw [preorderBelow, preorder_eq]
  simp

/-- The next node is the first that is pending; the others stay so. -/
theorem skipToNextIterator_spec (state : List (State ν M)) : match (skipToNextIterator state).2 with
    | none => pending state = []
    | some node => pending state = node :: pending (skipToNextIterator state).1 := by
  induction state with
  | nil => rfl
  | cons current state ih =>
    rw [skipToNextIterator, pending]
    generalize (if current.didGenerateRoot then current.it.tail else current.it) = it
    cases it with
    | nil => simpa [preorderBelow] using ih
    | cons entry it =>
      simp only
      rw [map_snd_preorderBelow_cons, pending, pending]
      simp

variable {callback : σ → Trie ν M → Option (σ × IterationDecision)} {f : σ → Trie ν M → σ}

section

variable (hcallback : ∀ s node, callback s node = some (f s node, .continues))

include hcallback

/-- After a step the loop calls back for all the nodes that were pending, in their order. -/
theorem runFor_skipToNextIterator
    (nodes : List (Trie ν M))
    (state : List (State ν M)) (s : σ) (hpending : pending state = nodes) :
    runFor (forEachPass callback) (nodes.length + 1) (skipToNextIterator state, s) =
      some (some (nodes.foldl f s)) := by
  have hskip := skipToNextIterator_spec state
  induction nodes generalizing state s with
  | nil =>
    generalize skipToNextIterator state = position at hskip ⊢
    obtain ⟨state', current⟩ := position
    cases current with
    | none => rfl
    | some node => exact absurd (hskip.symm.trans hpending) (cons_ne_nil _ _)
  | cons node nodes ih =>
    generalize skipToNextIterator state = position at hskip ⊢
    obtain ⟨state', current⟩ := position
    cases current with
    | none => exact absurd (hpending.symm.trans hskip) (cons_ne_nil _ _)
    | some node' =>
      obtain ⟨rfl, hrest⟩ := List.cons.inj (hskip.symm.trans hpending)
      have hpass : forEachPass callback ((state', some node'), s) =
          .next (skipToNextIterator state', f s node') := by
        rw [forEachPass, hcallback]
      rw [length_cons, runFor_succ_of_next hpass, foldl_cons]
      exact ih state' (f s node') hrest (skipToNextIterator_spec state')

/-- A callback that always continues is called for the nodes in preorder. -/
theorem forEachNodeInTreeOrder_eq
    {fuel : Nat} (root : Trie ν M) (s : σ) (hfuel : root.preorder.length < fuel) :
    forEachNodeInTreeOrder callback fuel root s =
      some (some ((root.preorder.map Prod.snd).foldl f s)) := by
  have hpending : pending [⟨false, root.mChildren⟩] =
      (preorderBelow root.mChildren).map Prod.snd := by
    simp only [pending, if_neg Bool.false_ne_true, append_nil]
  have hpass : forEachPass callback (([⟨false, root.mChildren⟩], some root), s) =
      .next (skipToNextIterator [⟨false, root.mChildren⟩], f s root) := by
    rw [forEachPass, hcallback]
  have hrun := runFor_skipToNextIterator hcallback _ _ (f s root) hpending
  rw [preorder_eq] at hfuel ⊢
  refine runFor_mono hfuel ?_
  rw [length_cons, runFor_succ_of_next hpass, ← length_map (f := Prod.snd), hrun]
  rfl

end

end Visits

/-! ### Paths in preorder -/

section Paths

variable [DecidableEq ν]

/-- One path comes before another in tree order: it leads to a node above, or where the two
part, its child comes first in the map. -/
def Before : Trie ν M → List ν → List ν → Prop
  | _, _, [] => False
  | _, [], _ :: _ => True
  | node, key :: path, key' :: path' =>
    List.Sublist [key, key'] (node.mChildren.map Prod.fst) ∨
      key = key' ∧ ∃ child, node.child? key = some child ∧ Before child path path'

theorem child?_iff_mem {node : Trie ν M} (hdistinct : node.Distinct) {key : ν} {child : Trie ν M} :
    node.child? key = some child ↔ (key, child) ∈ node.mChildren :=
  lookup_eq_some_iff_mem (distinct_iff.mp hdistinct).1

theorem distinct_of_mem {node : Trie ν M} (hdistinct : node.Distinct) {entry : ν × Trie ν M}
    (hentry : entry ∈ node.mChildren) : entry.2.Distinct :=
  (distinct_iff.mp hdistinct).2 entry.1 entry.2 ((child?_iff_mem hdistinct).mpr hentry)

theorem mem_preorder_iff {root : Trie ν M} (hdistinct : root.Distinct) (path : List ν)
    (node : Trie ν M) : (path, node) ∈ root.preorder ↔ root.nodeAt path = some node := by
  induction root using induct generalizing path with
  | h root ih =>
    rw [preorder_eq, preorderBelow_eq, mem_cons, mem_flatMap]
    cases path with
    | nil => simp [nodeAt, eq_comm]
    | cons key path =>
      rw [nodeAt, Option.bind_eq_some_iff]
      constructor
      · rintro (h | ⟨entry, hentry, hbelow⟩)
        · cases h
        · obtain ⟨⟨path', node'⟩, hmem, heq⟩ := List.mem_map.mp hbelow
          cases heq
          exact ⟨entry.2, (child?_iff_mem hdistinct).mpr hentry,
            (ih entry hentry (distinct_of_mem hdistinct hentry) _).mp hmem⟩
      · rintro ⟨child, hchild, hnode⟩
        have hentry := (child?_iff_mem hdistinct).mp hchild
        exact .inr ⟨(key, child), hentry, List.mem_map.mpr ⟨(path, node),
          (ih _ hentry (distinct_of_mem hdistinct hentry) path).mpr hnode, rfl⟩⟩

theorem preorder_pairwise {root : Trie ν M} (hdistinct : root.Distinct) :
    root.preorder.Pairwise fun entry entry' => Before root entry.1 entry'.1 := by
  induction root using induct with
  | h root ih =>
    rw [preorder_eq, preorderBelow_eq, pairwise_cons, pairwise_flatMap]
    refine ⟨fun below hbelow => ?_, fun entry hentry => ?_, ?_⟩
    · obtain ⟨entry, -, hmem⟩ := mem_flatMap.mp hbelow
      obtain ⟨below', -, rfl⟩ := List.mem_map.mp hmem
      trivial
    · -- Below one child.
      rw [pairwise_map]
      exact (ih entry hentry (distinct_of_mem hdistinct hentry)).imp fun hbefore =>
        .inr ⟨rfl, entry.2, (child?_iff_mem hdistinct).mpr hentry, hbefore⟩
    · -- Below an earlier child and a later one.
      refine pairwise_iff_forall_sublist.mpr fun {entry entry'} hsublist below hbelow
        below' hbelow' => ?_
      obtain ⟨_, -, rfl⟩ := List.mem_map.mp hbelow
      obtain ⟨_, -, rfl⟩ := List.mem_map.mp hbelow'
      exact .inl (hsublist.map Prod.fst)

theorem not_before_self {root : Trie ν M} (hdistinct : root.Distinct) (path : List ν) :
    ¬ Before root path path := by
  induction path generalizing root with
  | nil => exact id
  | cons key path ih =>
    rintro (htwice | ⟨-, child, hchild, hbefore⟩)
    · exact not_nodup_pair key ((distinct_iff.mp hdistinct).1.sublist htwice)
    · exact ih ((distinct_iff.mp hdistinct).2 key child hchild) hbefore

end Paths

/-! ### Copies -/

section Copies

variable [DecidableEq ν] (maps : Trie ν M → ChildrenMap ν M)

omit [DecidableEq ν] in
/-- A map of copies has the keys of the original, in some order. -/
theorem copyChildren_perm (map : ChildrenMap ν M) (children copied : List (ν × Trie ν M))
    (hkeys : DistinctKeys (children ++ copied)) : (copyChildren maps map children copied).Perm
      (children.map (fun entry => (entry.1, deepCopy maps entry.2)) ++ copied) := by
  induction children generalizing copied with
  | nil => rw [copyChildren]; exact .refl _
  | cons entry rest ih =>
    obtain ⟨key, child⟩ := entry
    rw [List.cons_append] at hkeys
    obtain ⟨hfresh, hrest⟩ := distinctKeys_cons.mp hkeys
    rw [map_append, mem_append, not_or] at hfresh
    have hset := map.perm copied (key, deepCopy maps child) hfresh.2
    have hmiddle : (rest ++ map.trySet copied (key, deepCopy maps child)).Perm
        ((key, deepCopy maps child) :: (rest ++ copied)) :=
      (hset.append_left rest).trans perm_middle
    have hkeys' : DistinctKeys ((key, deepCopy maps child) :: (rest ++ copied)) :=
      distinctKeys_cons.mpr ⟨by simpa using hfresh, hrest⟩
    rw [copyChildren]
    exact (ih _ (hkeys'.perm hmiddle)).trans
      ((hset.append_left _).trans perm_middle)

theorem mChildren_deepCopy_perm {node : Trie ν M} (hdistinct : node.Distinct) :
    (deepCopy maps node).mChildren.Perm
      (node.mChildren.map fun entry => (entry.1, deepCopy maps entry.2)) := by
  have hperm := copyChildren_perm maps (maps node) node.mChildren []
    (by rw [append_nil]; exact (distinct_iff.mp hdistinct).1)
  rw [append_nil] at hperm
  cases node
  rw [deepCopy]
  exact hperm

theorem child?_deepCopy {node : Trie ν M} (hdistinct : node.Distinct) (key : ν) :
    (deepCopy maps node).child? key = (node.child? key).map (deepCopy maps) := by
  have hkeys : DistinctKeys (node.mChildren.map fun entry => (entry.1, deepCopy maps entry.2)) := by
    rw [DistinctKeys, List.map_map]
    exact (distinct_iff.mp hdistinct).1
  simp only [child?, lookup_perm hkeys (mChildren_deepCopy_perm maps hdistinct), lookup_map]

theorem nodeAt_deepCopy {root : Trie ν M} (hdistinct : root.Distinct) (path : List ν) :
    (deepCopy maps root).nodeAt path = (root.nodeAt path).map (deepCopy maps) := by
  induction path generalizing root with
  | nil => rfl
  | cons key path ih =>
    simp only [nodeAt, child?_deepCopy maps hdistinct]
    cases hchild : root.child? key with
    | none => rfl
    | some child => exact ih ((distinct_iff.mp hdistinct).2 key child hchild)

omit [DecidableEq ν] in
@[simp] theorem mValue_deepCopy (node : Trie ν M) : (deepCopy maps node).mValue = node.mValue := by
  cases node
  rw [deepCopy, mValue, mValue]

omit [DecidableEq ν] in
@[simp] theorem mMetadata_deepCopy (node : Trie ν M) :
    (deepCopy maps node).mMetadata = node.mMetadata := by
  cases node
  rw [deepCopy, mMetadata, mMetadata]

end Copies

/-- A callback that always continues is called once for every node, in preorder, and the
traversal ends; a deep copy has the same paths, with the same values and metadata. -/
theorem tree_order [DecidableEq ν] {root : Trie ν M} (hdistinct : root.Distinct) :
    (∀ (σ : Type) (callback : σ → Trie ν M → Option (σ × IterationDecision))
        (f : σ → Trie ν M → σ), (∀ s node, callback s node = some (f s node, .continues)) →
        ∀ s fuel, root.preorder.length < fuel →
          forEachNodeInTreeOrder callback fuel root s =
            some (some ((root.preorder.map Prod.snd).foldl f s))) ∧
      (∀ path node, (path, node) ∈ root.preorder ↔ root.nodeAt path = some node) ∧
      (root.preorder.map Prod.fst).Pairwise (Before root) ∧
      (∀ path, ¬ Before root path path) ∧
      ∀ (maps : Trie ν M → ChildrenMap ν M) (path : List ν),
        ((deepCopy maps root).nodeAt path).map (fun node => (node.mValue, node.mMetadata)) =
          (root.nodeAt path).map fun node => (node.mValue, node.mMetadata) := by
  refine ⟨fun σ callback f hcallback s fuel hfuel => forEachNodeInTreeOrder_eq hcallback root s hfuel,
    mem_preorder_iff hdistinct, pairwise_map.mpr (preorder_pairwise hdistinct),
    not_before_self hdistinct, fun maps path => ?_⟩
  rw [nodeAt_deepCopy maps hdistinct, Option.map_map]
  refine congrArg (fun f => Option.map f _) (funext fun node => ?_)
  simp

/-- A root with two children, the second of which has one. -/
theorem tree_order_four :
    forEachNodeInTreeOrder (fun s node => some (s ++ [node.mValue], .continues)) 5
      (mk 0 none [(5, mk 5 none []), (3, mk 3 (some 1) [(4, mk 4 none [])])] : Trie Nat Nat) [] =
        some (some [0, 5, 3, 4]) := by
  have hthree : (mk 3 (some 1) [(4, mk 4 none [])] : Trie Nat Nat).Distinct :=
    distinct_of_children (nodup_singleton 4) (by simp [mChildren, distinct_leaf])
  have hroot : (mk 0 none [(5, mk 5 none []), (3, mk 3 (some 1) [(4, mk 4 none [])])] :
      Trie Nat Nat).Distinct :=
    distinct_of_children (by simp [DistinctKeys, mChildren])
      (by simp [mChildren, distinct_leaf, hthree])
  exact (tree_order hroot).1 _ _ (fun s node => s ++ [node.mValue]) (fun _ _ => rfl) [] 5
    (by decide)

end Trie

end Literate.AK
