import Literate.Foundation.Associations
import Mathlib.Data.List.Induction

/-!
# AK: the trie

A node of `Trie` has a value, metadata that may be missing, and a hash map from the values
of its children to them.  A path is the sequence of the values below the root.  The map is
given by its entries in the order in which it iterates; how that order changes when a key is
set is left to the map.
-/

namespace Literate.AK

open Foundation

inductive Trie (ν M : Type) where
  | mk (mValue : ν) (mMetadata : Option M) (mChildren : List (ν × Trie ν M))

/-- What a map of children does when a key that it does not hold is set. -/
structure ChildrenMap (ν M : Type) where
  trySet : List (ν × Trie ν M) → ν × Trie ν M → List (ν × Trie ν M)
  perm : ∀ entries entry, entry.1 ∉ entries.map Prod.fst →
    (trySet entries entry).Perm (entry :: entries)

namespace Trie

variable {ν M : Type}

def mValue : Trie ν M → ν
  | mk value _ _ => value

def mMetadata : Trie ν M → Option M
  | mk _ metadata _ => metadata

def mChildren : Trie ν M → List (ν × Trie ν M)
  | mk _ _ children => children

def setMetadata (metadata : M) : Trie ν M → Trie ν M
  | mk value _ children => mk value (some metadata) children

variable [DecidableEq ν]

/-- `m_children.find`. -/
def child? (node : Trie ν M) (key : ν) : Option (Trie ν M) := node.mChildren.lookup key

/-- The child of a key, to which a pointer is held, has become `child`. -/
def setChild : Trie ν M → ν → Trie ν M → Trie ν M
  | mk value metadata children, key, child => mk value metadata (replaceKey children key child)

/-- `traverse_until_last_accessible_node`: the node, and the path from the iterator on. -/
def traverseUntilLastAccessibleNode : List ν → Trie ν M → Trie ν M × List ν
  | [], node => (node, [])
  | key :: rest, node =>
    match node.child? key with
    | none => (node, key :: rest)
    | some child => traverseUntilLastAccessibleNode rest child

/-- `ensure_child`: the node, whose child of the value then is there. -/
def ensureChild (map : ChildrenMap ν M) (value : ν) (metadata : Option M) (node : Trie ν M) :
    Trie ν M :=
  match node.child? value with
  | none => mk node.mValue node.mMetadata (map.trySet node.mChildren (value, mk value metadata []))
  | some child =>
    match metadata with
    | none => node
    | some metadata => node.setChild value (child.setMetadata metadata)

/-- The loop of `insert` from the last root node on: that node as it is left, and the final
node unless an error is returned.  `provideMissingMetadata` may fail. -/
def insertLoop (map : ChildrenMap ν M)
    (provideMissingMetadata : Trie ν M → List ν → Option (Option M)) (metadata : M) :
    List ν → Trie ν M → Trie ν M × Option (Trie ν M)
  | [], node => (node.setMetadata metadata, some (node.setMetadata metadata))
  | value :: rest, node =>
    match provideMissingMetadata node (value :: rest) with
    | none => (node, none)
    | some missing =>
      let node := node.ensureChild map value missing
      match node.child? value with
      | none => (node, none)
      | some child =>
        let (child, final) := insertLoop map provideMissingMetadata metadata rest child
        (node.setChild value child, final)

/-- What is done to the node at the end of a path happens in place. -/
def modifyAt {ρ : Type} (f : Trie ν M → Trie ν M × Option ρ) :
    List ν → Trie ν M → Trie ν M × Option ρ
  | [], node => f node
  | key :: path, node =>
    match node.child? key with
    | none => (node, none)
    | some child =>
      let (child, result) := modifyAt f path child
      (node.setChild key child, result)

def insert (map : ChildrenMap ν M)
    (provideMissingMetadata : Trie ν M → List ν → Option (Option M)) (metadata : M)
    (path : List ν) (root : Trie ν M) : Trie ν M × Option (Trie ν M) :=
  let (_, rest) := root.traverseUntilLastAccessibleNode path
  root.modifyAt (insertLoop map provideMissingMetadata metadata rest)
    (path.take (path.length - rest.length))

/-! ### Nodes and paths -/

/-- The node at the end of a path. -/
def nodeAt : List ν → Trie ν M → Option (Trie ν M)
  | [], node => some node
  | key :: path, node => (node.child? key).bind (nodeAt path)

/-- No map holds a key twice. -/
def Distinct (root : Trie ν M) : Prop :=
  ∀ path node, root.nodeAt path = some node → DistinctKeys node.mChildren

section Paths

variable {node child : Trie ν M} {key : ν}

theorem nodeAt_cons (h : node.child? key = some child) (path : List ν) :
    node.nodeAt (key :: path) = child.nodeAt path := by
  rw [nodeAt, h, Option.bind_some]

theorem nodeAt_cons_none (h : node.child? key = none) (path : List ν) :
    node.nodeAt (key :: path) = none := by
  rw [nodeAt, h, Option.bind_none]

theorem nodeAt_cons_of_child {other : Trie ν M} (h : other.child? key = node.child? key)
    (path : List ν) : other.nodeAt (key :: path) = node.nodeAt (key :: path) := by
  simp only [nodeAt, h]

theorem nodeAt_append (path path' : List ν) (node : Trie ν M) :
    node.nodeAt (path ++ path') = (node.nodeAt path).bind (nodeAt path') := by
  induction path generalizing node with
  | nil => rfl
  | cons key path ih =>
    simp only [List.cons_append, nodeAt, Option.bind_assoc]
    exact congrArg _ (funext fun child => ih child)

theorem nodeAt_isSome_of_prefix {path path' : List ν} (h : path <+: path')
    (hsome : (node.nodeAt path').isSome) : (node.nodeAt path).isSome := by
  obtain ⟨rest, rfl⟩ := h
  rw [nodeAt_append] at hsome
  cases hnode : node.nodeAt path with
  | none => rw [hnode] at hsome; cases hsome
  | some _ => rfl

theorem distinct_iff : node.Distinct ↔ DistinctKeys node.mChildren ∧
    ∀ key child, node.child? key = some child → child.Distinct := by
  constructor
  · intro h
    exact ⟨h [] node rfl, fun key child hchild path node' hnode =>
      h (key :: path) node' ((nodeAt_cons hchild path).trans hnode)⟩
  · rintro ⟨hkeys, hchildren⟩ path node' hnode
    cases path with
    | nil =>
      obtain rfl := Option.some.inj hnode
      exact hkeys
    | cons key path =>
      obtain ⟨child, hchild, hnode⟩ := Option.bind_eq_some_iff.mp hnode
      exact hchildren key child hchild path node' hnode

theorem distinct_of_children (hkeys : DistinctKeys node.mChildren)
    (hchildren : ∀ entry ∈ node.mChildren, entry.2.Distinct) : node.Distinct :=
  distinct_iff.mpr ⟨hkeys, fun _ _ hchild => hchildren _ (mem_of_lookup hchild)⟩

theorem distinct_leaf (value : ν) (metadata : Option M) : (mk value metadata []).Distinct :=
  distinct_of_children List.nodup_nil fun _ hentry => nomatch hentry

omit [DecidableEq ν] in
@[simp] theorem mMetadata_setMetadata (metadata : M) (node : Trie ν M) :
    (node.setMetadata metadata).mMetadata = some metadata := by
  cases node
  rfl

omit [DecidableEq ν] in
@[simp] theorem mValue_setMetadata (metadata : M) (node : Trie ν M) :
    (node.setMetadata metadata).mValue = node.mValue := by
  cases node
  rfl

omit [DecidableEq ν] in
@[simp] theorem mChildren_setMetadata (metadata : M) (node : Trie ν M) :
    (node.setMetadata metadata).mChildren = node.mChildren := by
  cases node
  rfl

section

variable (node : Trie ν M) (key : ν) (child : Trie ν M)

@[simp] theorem mMetadata_setChild : (node.setChild key child).mMetadata = node.mMetadata := by
  cases node
  rfl

@[simp] theorem mValue_setChild : (node.setChild key child).mValue = node.mValue := by
  cases node
  rfl

@[simp] theorem mChildren_setChild :
    (node.setChild key child).mChildren = replaceKey node.mChildren key child := by
  cases node
  rfl

end

theorem child?_setChild_self (h : node.child? key = some child) (child' : Trie ν M) :
    (node.setChild key child').child? key = some child' := by
  rw [child?, mChildren_setChild, lookup_replaceKey_self h]

theorem child?_setChild_of_ne {key' : ν} (h : key' ≠ key) (child : Trie ν M) :
    (node.setChild key child).child? key' = node.child? key' := by
  simp only [child?, mChildren_setChild, lookup_replaceKey_of_ne _ h]

end Paths

/-! ### What an insertion does -/

/-- What is left after an insertion, and the final node unless an error is returned. -/
structure Inserted (path : List ν) (metadata : M) (root : Trie ν M)
    (r : Trie ν M × Option (Trie ν M)) : Prop where
  distinct : r.1.Distinct
  /-- The nodes stay, with their metadata unless they are the final one. -/
  kept : ∀ p node, root.nodeAt p = some node → ∃ node', r.1.nodeAt p = some node' ∧
    node'.mValue = node.mValue ∧ (p ≠ path → node'.mMetadata = node.mMetadata)
  /-- The new ones are on the path. -/
  made : ∀ p, (r.1.nodeAt p).isSome → (root.nodeAt p).isSome ∨ p <+: path
  final : ∀ node, r.2 = some node → r.1.nodeAt path = some node ∧ node.mMetadata = some metadata

section Insertion

variable {path : List ν} {metadata : M} {node child : Trie ν M} {key : ν}

theorem Inserted.refl (path : List ν) (metadata : M) (h : node.Distinct) :
    Inserted path metadata node (node, none) where
  distinct := h
  kept := fun _ node' hnode => ⟨node', hnode, rfl, fun _ => rfl⟩
  made := fun _ hsome => .inl hsome
  final := fun _ hnone => nomatch hnone

theorem inserted_setMetadata (metadata : M) (h : node.Distinct) :
    Inserted [] metadata node (node.setMetadata metadata, some (node.setMetadata metadata)) := by
  have hsame : ∀ key rest,
      (node.setMetadata metadata).nodeAt (key :: rest) = node.nodeAt (key :: rest) := fun _ rest =>
    nodeAt_cons_of_child (by simp only [child?, mChildren_setMetadata]) rest
  constructor
  · rw [distinct_iff] at h ⊢
    simpa [child?] using h
  · rintro (- | ⟨key, rest⟩) node' hnode
    · obtain rfl := Option.some.inj hnode
      exact ⟨_, rfl, mValue_setMetadata metadata node, fun hne => absurd rfl hne⟩
    · exact ⟨node', (hsame key rest).trans hnode, rfl, fun _ => rfl⟩
  · rintro (- | ⟨key, rest⟩) hsome
    · exact .inr (List.nil_prefix)
    · exact .inl (hsame key rest ▸ hsome)
  · rintro node' hnode
    obtain rfl := Option.some.inj hnode
    exact ⟨rfl, mMetadata_setMetadata metadata node⟩

/-- What an insertion does below a child it does below the node. -/
theorem Inserted.setChild {r : Trie ν M × Option (Trie ν M)} (hdistinct : node.Distinct)
    (hchild : node.child? key = some child) (h : Inserted path metadata child r) :
    Inserted (key :: path) metadata node (node.setChild key r.1, r.2) := by
  have hself := child?_setChild_self hchild r.1
  have hother : ∀ key' ≠ key, ∀ rest,
      (node.setChild key r.1).nodeAt (key' :: rest) = node.nodeAt (key' :: rest) :=
    fun key' hne rest => nodeAt_cons_of_child (child?_setChild_of_ne hne r.1) rest
  constructor
  · rw [distinct_iff] at hdistinct ⊢
    refine ⟨?_, fun key' child' hchild' => ?_⟩
    · rw [mChildren_setChild, DistinctKeys, keys_replaceKey]
      exact hdistinct.1
    · by_cases hkey : key' = key
      · subst hkey
        obtain rfl := Option.some.inj (hself.symm.trans hchild')
        exact h.distinct
      · exact hdistinct.2 key' child' (child?_setChild_of_ne hkey r.1 ▸ hchild')
  · rintro (- | ⟨key', rest⟩) node' hnode
    · obtain rfl := Option.some.inj hnode
      exact ⟨_, rfl, mValue_setChild node key r.1, fun _ => mMetadata_setChild node key r.1⟩
    · by_cases hkey : key' = key
      · subst hkey
        rw [nodeAt_cons hchild] at hnode
        obtain ⟨node'', hnode'', hvalue, hmetadata⟩ := h.kept rest node' hnode
        exact ⟨node'', (nodeAt_cons hself rest).trans hnode'', hvalue,
          fun hne => hmetadata fun heq => hne (congrArg (List.cons key') heq)⟩
      · exact ⟨node', (hother key' hkey rest).trans hnode, rfl, fun _ => rfl⟩
  · rintro (- | ⟨key', rest⟩) hsome
    · exact .inl rfl
    · by_cases hkey : key' = key
      · subst hkey
        rw [nodeAt_cons hself] at hsome
        rw [nodeAt_cons hchild]
        exact (h.made rest hsome).imp_right fun hrest => List.cons_prefix_cons.mpr ⟨rfl, hrest⟩
      · exact .inl (hother key' hkey rest ▸ hsome)
  · intro node' hnode
    rw [nodeAt_cons hself]
    exact h.final node' hnode

/-! A child that is made before the insertion goes on. -/

section Ensured

variable (map : ChildrenMap ν M) (missing : Option M)

theorem ensureChild_of_none (hnone : node.child? key = none) : node.ensureChild map key missing =
      mk node.mValue node.mMetadata (map.trySet node.mChildren (key, mk key missing [])) := by
  rw [ensureChild, hnone]

section

variable (hdistinct : node.Distinct)

include hdistinct

theorem distinctKeys_of_none (hnone : node.child? key = none) :
    DistinctKeys ((key, mk key missing []) :: node.mChildren) :=
  distinctKeys_cons.mpr ⟨lookup_eq_none_iff_not_mem.mp hnone, (distinct_iff.mp hdistinct).1⟩

theorem child?_ensureChild (hnone : node.child? key = none) (key' : ν) :
    (node.ensureChild map key missing).child? key' =
      ((key, mk key missing []) :: node.mChildren).lookup key' := by
  rw [ensureChild_of_none map missing hnone, child?]
  exact lookup_perm (distinctKeys_of_none missing hdistinct hnone)
    (map.perm _ _ (lookup_eq_none_iff_not_mem.mp hnone)) key'

theorem child?_ensureChild_self (hnone : node.child? key = none) :
    (node.ensureChild map key missing).child? key = some (mk key missing []) :=
  (child?_ensureChild map missing hdistinct hnone key).trans List.lookup_cons_self

theorem child?_ensureChild_of_ne (hnone : node.child? key = none) {key' : ν} (hne : key' ≠ key) :
    (node.ensureChild map key missing).child? key' = node.child? key' :=
  (child?_ensureChild map missing hdistinct hnone key').trans (lookup_cons_of_ne hne _ _)

theorem distinct_ensureChild (hnone : node.child? key = none) :
    (node.ensureChild map key missing).Distinct := by
  refine distinct_iff.mpr ⟨?_, fun key' child hchild => ?_⟩
  · rw [ensureChild_of_none map missing hnone]
    exact (distinctKeys_of_none missing hdistinct hnone).perm
      (map.perm _ _ (lookup_eq_none_iff_not_mem.mp hnone))
  · by_cases hkey : key' = key
    · subst hkey
      rw [child?_ensureChild_self map missing hdistinct hnone] at hchild
      obtain rfl := Option.some.inj hchild
      exact distinct_leaf key' missing
    · rw [child?_ensureChild_of_ne map missing hdistinct hnone hkey] at hchild
      exact (distinct_iff.mp hdistinct).2 key' child hchild

theorem Inserted.of_ensureChild {r : Trie ν M × Option (Trie ν M)} (hnone : node.child? key = none)
    (h : Inserted (key :: path) metadata (node.ensureChild map key missing) r) :
    Inserted (key :: path) metadata node r := by
  have hself := child?_ensureChild_self map missing hdistinct hnone
  have hold : ∀ key' ≠ key, ∀ rest,
      (node.ensureChild map key missing).nodeAt (key' :: rest) = node.nodeAt (key' :: rest) :=
    fun key' hne rest =>
      nodeAt_cons_of_child (child?_ensureChild_of_ne map missing hdistinct hnone hne) rest
  refine ⟨h.distinct, ?_, ?_, h.final⟩
  · rintro (- | ⟨key', rest⟩) node' hnode
    · obtain rfl := Option.some.inj hnode
      have hroot := h.kept [] _ rfl
      rw [ensureChild_of_none map missing hnone] at hroot
      exact hroot
    · by_cases hkey : key' = key
      · rw [hkey, nodeAt_cons_none hnone] at hnode
        cases hnode
      · exact h.kept _ node' ((hold key' hkey rest).trans hnode)
  · intro p hsome
    refine (h.made p hsome).elim (fun hbefore => ?_) .inr
    cases p with
    | nil => exact .inl rfl
    | cons key' rest =>
      by_cases hkey : key' = key
      · subst hkey
        rw [nodeAt_cons hself] at hbefore
        cases rest with
        | nil => exact .inr (List.cons_prefix_cons.mpr ⟨rfl, List.nil_prefix⟩)
        | cons _ _ => cases hbefore
      · exact .inl (hold key' hkey rest ▸ hbefore)

end

end Ensured

section Insert

variable (map : ChildrenMap ν M) (provideMissingMetadata : Trie ν M → List ν → Option (Option M))
  (metadata : M)

/-- The loop goes on from the deepest node there is, below nodes that it has made. -/
theorem insertLoop_inserted (path : List ν) (hdistinct : node.Distinct)
    (hlast : ∀ key rest, path = key :: rest → node.child? key = none) :
    Inserted path metadata node (insertLoop map provideMissingMetadata metadata path node) := by
  induction path generalizing node with
  | nil => exact inserted_setMetadata metadata hdistinct
  | cons key rest ih =>
    have hnone := hlast key rest rfl
    rw [insertLoop]
    cases provideMissingMetadata node (key :: rest) with
    | none => exact .refl _ _ hdistinct
    | some missing =>
      have hself := child?_ensureChild_self map missing hdistinct hnone
      simp only [hself]
      exact .of_ensureChild map missing hdistinct hnone
        (.setChild (distinct_ensureChild map missing hdistinct hnone) hself
          (ih (distinct_leaf key missing) fun _ _ _ => rfl))

/-- The loop begins where the traversal of the path ends. -/
theorem insert_of_last {root : Trie ν M}
    (hlast : ∀ key rest, path = key :: rest → root.child? key = none) :
    root.insert map provideMissingMetadata metadata path =
      insertLoop map provideMissingMetadata metadata path root := by
  have hhere : root.traverseUntilLastAccessibleNode path = (root, path) := by
    cases path with
    | nil => rfl
    | cons key rest => rw [traverseUntilLastAccessibleNode, hlast key rest rfl]
  rw [insert, hhere]
  simp only [Nat.sub_self, List.take_zero]
  rfl

theorem traverse_length_le (path : List ν) (root : Trie ν M) :
    (root.traverseUntilLastAccessibleNode path).2.length ≤ path.length := by
  induction path generalizing root with
  | nil => exact Nat.le_refl _
  | cons key rest ih =>
    rw [traverseUntilLastAccessibleNode]
    cases root.child? key with
    | none => exact Nat.le_refl _
    | some child => exact Nat.le_succ_of_le (ih child)

theorem insert_of_child {rest : List ν} {root : Trie ν M} (hchild : root.child? key = some child) :
    root.insert map provideMissingMetadata metadata (key :: rest) =
      (root.setChild key (child.insert map provideMissingMetadata metadata rest).1,
        (child.insert map provideMissingMetadata metadata rest).2) := by
  have hle := traverse_length_le rest child
  have htake : (key :: rest).length - (child.traverseUntilLastAccessibleNode rest).2.length =
      rest.length - (child.traverseUntilLastAccessibleNode rest).2.length + 1 := by
    rw [List.length_cons]
    omega
  rw [insert, traverseUntilLastAccessibleNode, hchild]
  simp only [htake, List.take_succ_cons]
  rw [modifyAt, hchild]
  rfl

theorem insert_inserted (path : List ν) {root : Trie ν M} (hdistinct : root.Distinct) :
    Inserted path metadata root (root.insert map provideMissingMetadata metadata path) := by
  induction path generalizing root with
  | nil =>
    rw [insert_of_last map provideMissingMetadata metadata (by simp)]
    exact inserted_setMetadata metadata hdistinct
  | cons key rest ih =>
    cases hchild : root.child? key with
    | none =>
      have hlast : ∀ key' rest', key :: rest = key' :: rest' → root.child? key' = none := by
        rintro _ _ ⟨⟩
        exact hchild
      rw [insert_of_last map provideMissingMetadata metadata hlast]
      exact insertLoop_inserted map provideMissingMetadata metadata _ hdistinct hlast
    | some child =>
      rw [insert_of_child map provideMissingMetadata metadata hchild]
      exact .setChild hdistinct hchild (ih ((distinct_iff.mp hdistinct).2 key child hchild))

end Insert

end Insertion

/-! ### Sequences of insertions -/

/-- An insertion: its arguments, and what the maps do during it. -/
structure Insertion (ν M : Type) where
  path : List ν
  metadata : M
  provideMissingMetadata : Trie ν M → List ν → Option (Option M)
  map : ChildrenMap ν M

/-- What an insertion leaves and returns. -/
def Insertion.apply (insertion : Insertion ν M) (root : Trie ν M) : Trie ν M × Option (Trie ν M) :=
  root.insert insertion.map insertion.provideMissingMetadata insertion.metadata insertion.path

/-- The trie after insertions none of which returns an error. -/
def run (root : Trie ν M) (history : List (Insertion ν M)) : Option (Trie ν M) :=
  history.foldlM (fun root insertion =>
    (insertion.apply root).2.map fun _ => (insertion.apply root).1) root

/-- The trie holds the paths of a history, each with the metadata of its last insertion. -/
structure Records (root : Trie ν M) (history : List (Insertion ν M)) : Prop where
  distinct : root.Distinct
  nodes : ∀ path, (root.nodeAt path).isSome ↔
    path = [] ∨ ∃ insertion ∈ history, path <+: insertion.path
  last : ∀ before insertion after, history = before ++ insertion :: after →
    (∀ later ∈ after, later.path ≠ insertion.path) →
      ∃ node, root.nodeAt insertion.path = some node ∧ node.mMetadata = some insertion.metadata

section Histories

variable {root : Trie ν M} {history : List (Insertion ν M)}

theorem records_nil (value : ν) (metadata : Option M) : Records (mk value metadata []) [] where
  distinct := distinct_leaf value metadata
  nodes := by
    rintro (- | ⟨key, rest⟩)
    · simp [nodeAt]
    · rw [nodeAt_cons_none rfl]
      simp
  last := fun before _ _ h => absurd h (by simp)

theorem Records.insert {insertion : Insertion ν M} (h : Records root history)
    {final : Trie ν M} (hfinal : (insertion.apply root).2 = some final) :
    Records (insertion.apply root).1 (history ++ [insertion]) := by
  have hinserted := insert_inserted insertion.map insertion.provideMissingMetadata
    insertion.metadata insertion.path h.distinct
  have hnode := (hinserted.final final hfinal).1
  refine ⟨hinserted.distinct, fun path => ?_, ?_⟩
  · have hexists : (∃ i ∈ history ++ [insertion], path <+: i.path) ↔
        (∃ i ∈ history, path <+: i.path) ∨ path <+: insertion.path := by
      simp [or_and_right, exists_or]
    rw [hexists, ← or_assoc, ← h.nodes]
    constructor
    · exact hinserted.made path
    · rintro (hsome | hpath)
      · obtain ⟨node, hnode⟩ := Option.isSome_iff_exists.mp hsome
        obtain ⟨node', hnode', -⟩ := hinserted.kept path node hnode
        exact Option.isSome_iff_exists.mpr ⟨node', hnode'⟩
      · exact nodeAt_isSome_of_prefix hpath (Option.isSome_iff_exists.mpr ⟨final, hnode⟩)
  · intro before earlier after hsplit hlast
    rcases List.eq_nil_or_concat after with rfl | ⟨after, latest, rfl⟩
    · obtain ⟨-, rfl⟩ := List.append_singleton_inj.mp hsplit
      exact ⟨final, hinserted.final final hfinal⟩
    · -- The latest insertion is of another path.
      have hassoc : before ++ earlier :: after.concat latest =
          (before ++ earlier :: after) ++ [latest] := by simp
      obtain ⟨rfl, rfl⟩ := List.append_singleton_inj.mp (hsplit.trans hassoc)
      obtain ⟨node, hnode, hmetadata⟩ := h.last before earlier after rfl fun later hlater =>
        hlast later (by simp [hlater])
      obtain ⟨node', hnode', -, hkept⟩ := hinserted.kept _ node hnode
      exact ⟨node', hnode', (hkept (hlast insertion (by simp)).symm).trans hmetadata⟩

theorem records_of_run {value : ν} {metadata : Option M}
    (hrun : run (mk value metadata []) history = some root) : Records root history := by
  induction history using List.reverseRecOn generalizing root with
  | nil =>
    obtain rfl := Option.some.inj hrun
    exact records_nil value metadata
  | append_singleton history insertion ih =>
    rw [run, List.foldlM_append] at hrun
    obtain ⟨root', hrun', hlatest⟩ := Option.bind_eq_some_iff.mp hrun
    rw [List.foldlM_cons] at hlatest
    obtain ⟨_, hlatest, hroot⟩ := Option.bind_eq_some_iff.mp hlatest
    obtain ⟨final, hfinal, rfl⟩ := Option.map_eq_some_iff.mp hlatest
    obtain rfl := Option.some.inj hroot
    exact (ih hrun').insert hfinal

theorem traverse_spec (path : List ν) (root : Trie ν M) :
    ∃ consumed, path = consumed ++ (root.traverseUntilLastAccessibleNode path).2 ∧
      root.nodeAt consumed = some (root.traverseUntilLastAccessibleNode path).1 ∧
      ∀ p, p <+: path → (p <+: consumed ↔ (root.nodeAt p).isSome) := by
  induction path generalizing root with
  | nil =>
    refine ⟨[], rfl, rfl, fun p hp => ?_⟩
    rw [List.prefix_nil.mp hp]
    exact iff_of_true List.nil_prefix rfl
  | cons key rest ih =>
    rw [traverseUntilLastAccessibleNode]
    cases hchild : root.child? key with
    | none =>
      refine ⟨[], rfl, rfl, fun p hp => ?_⟩
      cases p with
      | nil => exact iff_of_true List.nil_prefix rfl
      | cons key' p =>
        obtain ⟨rfl, -⟩ := List.cons_prefix_cons.mp hp
        rw [nodeAt_cons_none hchild]
        exact iff_of_false (by simp) (by simp)
    | some child =>
      obtain ⟨consumed, hsplit, hnode, hlongest⟩ := ih child
      refine ⟨key :: consumed, congrArg _ hsplit, (nodeAt_cons hchild _).trans hnode,
        fun p hp => ?_⟩
      cases p with
      | nil => exact iff_of_true List.nil_prefix rfl
      | cons key' p =>
        obtain ⟨rfl, htail⟩ := List.cons_prefix_cons.mp hp
        rw [nodeAt_cons hchild, ← hlongest p htail, List.cons_prefix_cons]
        simp

end Histories

/-- A trie is a map from the paths inserted: the traversal of a path consumes its longest
prefix that is one of theirs and ends at the node of that, the node of an inserted path has
the metadata of its last insertion, and an insertion, even one that returns an error, leaves
the metadata of every node but its final one. -/
theorem insertions_record {value : ν} {metadata : Option M} {history : List (Insertion ν M)}
    {root : Trie ν M} (hrun : run (mk value metadata []) history = some root) :
    (∀ path, ∃ consumed, path = consumed ++ (root.traverseUntilLastAccessibleNode path).2 ∧
        root.nodeAt consumed = some (root.traverseUntilLastAccessibleNode path).1 ∧
        ∀ p, p <+: path →
          (p <+: consumed ↔ p = [] ∨ ∃ insertion ∈ history, p <+: insertion.path)) ∧
      (∀ before insertion after, history = before ++ insertion :: after →
        (∀ later ∈ after, later.path ≠ insertion.path) →
          ∃ node, root.nodeAt insertion.path = some node ∧
            node.mMetadata = some insertion.metadata) ∧
      ∀ (insertion : Insertion ν M) (path : List ν) (node : Trie ν M),
        root.nodeAt path = some node → path ≠ insertion.path →
          ∃ node', (insertion.apply root).1.nodeAt path = some node' ∧
            node'.mMetadata = node.mMetadata := by
  have hrecords := records_of_run hrun
  refine ⟨fun path => ?_, hrecords.last, fun insertion path node hnode hne => ?_⟩
  · obtain ⟨consumed, hsplit, hnode, hlongest⟩ := traverse_spec path root
    exact ⟨consumed, hsplit, hnode, fun p hp =>
      (hlongest p hp).trans (hrecords.nodes p)⟩
  · obtain ⟨node', hnode', -, hmetadata⟩ := (insert_inserted insertion.map
      insertion.provideMissingMetadata insertion.metadata insertion.path
      hrecords.distinct).kept path node hnode
    exact ⟨node', hnode', hmetadata hne⟩

/-- A map that iterates in the order in which its keys were set. -/
def appending (ν M : Type) : ChildrenMap ν M where
  trySet := fun entries entry => entries ++ [entry]
  perm := fun entries entry _ => List.perm_append_singleton entry entries

/-- The second insertion ends at a node that the first has made, the third at its final one. -/
theorem insertions_record_three :
    ∃ node, (mk 0 none [(1, mk 1 (some 8) [(2, mk 2 (some 9) [])])] : Trie Nat Nat).nodeAt [1, 2] =
      some node ∧ node.mMetadata = some 9 :=
  (@insertions_record Nat Nat _ 0 none [⟨[1, 2], 7, fun _ _ => some none, appending Nat Nat⟩,
      ⟨[1], 8, fun _ _ => some none, appending Nat Nat⟩,
      ⟨[1, 2], 9, fun _ _ => some none, appending Nat Nat⟩] _
    rfl).2.1 [_, _] _ [] rfl (by simp)

end Trie

end Literate.AK
