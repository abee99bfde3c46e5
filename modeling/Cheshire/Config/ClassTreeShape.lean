import Cheshire.Config.ClassOutline

/-!
# The tree of an outline

The pointers of each node follow from the levels of the lines: the child is the next line where it is
deeper, the sibling the next line of the same level before any higher one, the parent the last line
before that is higher.  A level is kept in a `char`, so from level 128 on it becomes negative and the
search for an ancestor runs past the root.
-/

namespace Cheshire.Config

def levelAt (lines : List OutlineLine) (i : ℕ) : ℕ := (lines[i]?.map OutlineLine.level).getD 0

/-- The first line has level 0, and a line is at most one level deeper than the line before it. -/
structure Outline where
  lines : List OutlineLine
  first : levelAt lines 0 = 0
  steps : ∀ i, i + 1 < lines.length → levelAt lines (i + 1) ≤ levelAt lines i + 1
  written : ∀ line ∈ lines, line.Written

/-- A group of siblings with what is below them: the first line, its children and the other siblings. -/
inductive Forest where
  | nil
  | cons (node : LccClassNode) (children siblings : Forest)

namespace Forest

/-- The nodes from the top down, with their depths. -/
def preorder (depth : ℕ) : Forest → List (ℕ × LccClassNode)
  | nil => []
  | cons node children siblings =>
    (depth, node) :: preorder (depth + 1) children ++ preorder depth siblings

/-- The descriptions along the chain of the first line of each group that has the class number. -/
def chain (alpha : List Char) (num : ℚ) : Forest → List (List Char)
  | nil => []
  | cons node children siblings =>
    if lccInrange node alpha num then node.desc :: chain alpha num children
    else chain alpha num siblings

def size : Forest → ℕ
  | nil => 0
  | cons _ children siblings => children.size + siblings.size + 1

end Forest

def LccClassNode.unlinked (node : LccClassNode) : LccClassNode :=
  { node with parent := none, child := none, sibling := none }

/-- A pointer leads to a group of siblings. -/
inductive Shows (nodes : List LccClassNode) : Option ℕ → Forest → Prop
  | nil : Shows nodes none .nil
  | cons {place : ℕ} {node : LccClassNode} {children siblings : Forest}
      (hnode : nodes[place]? = some node) (hchildren : Shows nodes node.child children)
      (hsiblings : Shows nodes node.sibling siblings) :
      Shows nodes (some place) (.cons node.unlinked children siblings)

/-- The tree is built with a node for each line, its preorder is the outline with each line at its own level,
and every class number gets the descriptions along its chain. -/
def TreeRight (lines : List OutlineLine) : Prop :=
  ∃ tree forest, lccBuildclasstree (outlineFile lines) = .ok tree ∧ tree.nodes.length = lines.length ∧
    Shows tree.nodes tree.lccroot forest ∧
    forest.preorder 0 = (lines.map OutlineLine.level).zip (newNodes [] [] lines) ∧
    ∀ buffer alpha num, ∃ fuel, lccGetdesc tree.nodes alpha num fuel buffer tree.lccroot =
      .ok (buffer ++ (forest.chain alpha num).flatMap ('\\' :: ·))

variable {lines : List OutlineLine} {m i j place : ℕ} {node : LccClassNode}

variable (lastcmin lastcmax : List Char)

theorem length_newNodes (lines : List OutlineLine) :
    (newNodes lastcmin lastcmax lines).length = lines.length := by
  induction lines generalizing lastcmin lastcmax with
  | nil => rfl
  | cons line lines ih =>
    rw [newNodes]
    split
    · rw [List.length_cons, ih, List.length_cons]
    · rw [List.length_cons, ih, List.length_cons]

theorem newNode_spec (line : OutlineLine) :
    (newNode lastcmin lastcmax line).level = charOfLevel line.level ∧
      (newNode lastcmin lastcmax line).unlinked = newNode lastcmin lastcmax line := by
  unfold newNode
  dsimp only
  split <;> exact ⟨rfl, rfl⟩

theorem newNodes_spec (lines : List OutlineLine)
    (hnode : (newNodes lastcmin lastcmax lines)[i]? = some node) :
    node.level = charOfLevel (levelAt lines i) ∧ node.unlinked = node := by
  induction lines generalizing lastcmin lastcmax i with
  | nil => cases hnode
  | cons line lines ih =>
    rw [newNodes] at hnode
    cases i with
    | zero =>
      have hfirst : newNode lastcmin lastcmax line = node := by
        split at hnode <;> exact Option.some.inj hnode
      exact hfirst ▸ newNode_spec lastcmin lastcmax line
    | succ i =>
      split at hnode <;> exact ih _ _ hnode

theorem charOfLevel_eq {level : ℕ} (hle : level ≤ 127) : charOfLevel level = level := by
  rw [charOfLevel, Nat.mod_eq_of_lt (by omega), if_pos (by omega)]

/-- The next line of the same level, among the first `m`, with deeper ones only between. -/
def NextSibling (lines : List OutlineLine) (m i j : ℕ) : Prop :=
  i < j ∧ j < m ∧ levelAt lines j = levelAt lines i ∧
    ∀ k, i < k → k < j → levelAt lines i < levelAt lines k

/-- The last line before that is higher. -/
def IsParent (lines : List OutlineLine) (i j : ℕ) : Prop :=
  j < i ∧ levelAt lines j < levelAt lines i ∧
    ∀ k, j < k → k < i → levelAt lines i ≤ levelAt lines k

/-- The node of a line when the first `m` lines are in the tree. -/
structure NodeShows (lines : List OutlineLine) (m i : ℕ) (node : LccClassNode) : Prop where
  data : (newNodes [] [] lines)[i]? = some node.unlinked
  child : node.child = if i + 1 < m ∧ levelAt lines i < levelAt lines (i + 1) then some (i + 1) else none
  sibling : ∀ j, node.sibling = some j ↔ NextSibling lines m i j
  parent : ∀ j, node.parent = some j ↔ IsParent lines i j

/-- The tree of the first `m` lines. -/
structure Linked (lines : List OutlineLine) (m : ℕ) (tree : ClassTree) : Prop where
  length : tree.nodes.length = m
  nodes : ∀ i < m, ∃ node, tree.nodes[i]? = some node ∧ NodeShows lines m i node
  root : tree.lccroot = if m = 0 then none else some 0
  last : tree.lastnode = if m = 0 then none else some (m - 1)

theorem NodeShows.level (h : NodeShows lines m i node) (hle : levelAt lines i ≤ 127) :
    node.level = levelAt lines i := by
  have hlevel := (newNodes_spec [] [] lines h.data).1
  rw [charOfLevel_eq hle] at hlevel
  exact hlevel

theorem NodeShows.extend (h : NodeShows lines m i node) (hi : i < m)
    (hchild : i + 1 = m → levelAt lines m ≤ levelAt lines i) (hsibling : ¬NextSibling lines (m + 1) i m) :
    NodeShows lines (m + 1) i node where
  data := h.data
  child := by
    rw [h.child]
    congr 1
    rw [eq_iff_iff]
    constructor
    · rintro ⟨hlt, hdeeper⟩
      exact ⟨by omega, hdeeper⟩
    · rintro ⟨hlt, hdeeper⟩
      rcases (Nat.lt_succ_iff_lt_or_eq.mp hlt) with hinside | rfl
      · exact ⟨hinside, hdeeper⟩
      · exact absurd (hchild rfl) (not_le.mpr hdeeper)
  sibling := by
    intro j
    rw [h.sibling]
    constructor
    · rintro ⟨hij, hj, hsame, hbetween⟩
      exact ⟨hij, by omega, hsame, hbetween⟩
    · rintro ⟨hij, hj, hsame, hbetween⟩
      rcases (Nat.lt_succ_iff_lt_or_eq.mp hj) with hinside | rfl
      · exact ⟨hij, hinside, hsame, hbetween⟩
      · exact absurd ⟨hij, hj, hsame, hbetween⟩ hsibling
  parent := h.parent

theorem Linked.put {tree : ClassTree} (h : Linked lines m tree) (hplace : place < m)
    {changed newnode : LccClassNode} (hchanged : NodeShows lines (m + 1) place changed)
    (hnew : NodeShows lines (m + 1) m newnode)
    (hkept : ∀ i < m, i ≠ place → ∀ node, NodeShows lines m i node → NodeShows lines (m + 1) i node) :
    Linked lines (m + 1) { tree with
      nodes := tree.nodes.set place changed ++ [newnode], lastnode := some tree.nodes.length } where
  length := by rw [List.length_append, List.length_set, h.length, List.length_singleton]
  nodes := by
    intro i hi
    have hlength : (tree.nodes.set place changed).length = m := by rw [List.length_set, h.length]
    rcases Nat.lt_succ_iff_lt_or_eq.mp hi with hinside | rfl
    · dsimp only
      rw [List.getElem?_append_left (by rw [hlength]; exact hinside)]
      by_cases heq : place = i
      · subst heq
        exact ⟨changed, List.getElem?_set_self (by rw [h.length]; exact hinside), hchanged⟩
      · obtain ⟨node, hnode, hshows⟩ := h.nodes i hinside
        rw [List.getElem?_set_ne heq]
        exact ⟨node, hnode, hkept i hinside (Ne.symm heq) node hshows⟩
    · refine ⟨newnode, ?_, hnew⟩
      dsimp only
      rw [List.getElem?_append_right (by rw [hlength]), hlength, Nat.sub_self]
      rfl
  root := by
    dsimp only
    rw [h.root, if_neg (by omega), if_neg (Nat.succ_ne_zero m)]
  last := by
    dsimp only
    rw [h.length, if_neg (Nat.succ_ne_zero m), Nat.add_sub_cancel]

theorem nodeShows_new {newnode : LccClassNode} {parent : Option ℕ}
    (hnew : (newNodes [] [] lines)[m]? = some newnode)
    (hparent : ∀ j, parent = some j ↔ IsParent lines m j) :
    NodeShows lines (m + 1) m { newnode with parent := parent } where
  data := by
    have hsame := (newNodes_spec [] [] lines hnew).2
    rw [hnew, LccClassNode.unlinked, ← hsame]
    rfl
  child := by
    rw [if_neg fun hlt ↦ absurd hlt.1 (lt_irrefl _)]
    dsimp only
    rw [← (newNodes_spec [] [] lines hnew).2]
    rfl
  sibling := by
    intro j
    refine iff_of_false ?_ ?_
    · dsimp only
      rw [← (newNodes_spec [] [] lines hnew).2]
      exact fun hnone ↦ nomatch hnone
    · rintro ⟨hlt, hle, -⟩
      omega
  parent := hparent

variable {tree : ClassTree} {newnode : LccClassNode}

theorem Linked.insertBeside (h : Linked lines m tree) (hplace : place < m)
    (hnode : tree.nodes[place]? = some node) (hshows : NodeShows lines m place node)
    (hsame : levelAt lines place = levelAt lines m)
    (hbetween : ∀ k, place < k → k < m → levelAt lines m < levelAt lines k)
    (hnew : (newNodes [] [] lines)[m]? = some newnode) (status : ℕ) :
    ∃ tree', Config.insertBeside tree place node newnode status = .ok tree' ∧
      Linked lines (m + 1) tree' := by
  have hnone : node.sibling = none := by
    rw [Option.eq_none_iff_forall_ne_some]
    intro j hj
    obtain ⟨hlt, hjm, hlevel, -⟩ := (hshows.sibling j).mp hj
    have hdeeper := hbetween j hlt hjm
    omega
  refine ⟨_, if_pos hnone, ?_⟩
  have hlast : place + 1 = m ∨ levelAt lines m < levelAt lines (m - 1) := by
    rcases Nat.lt_or_ge place (m - 1) with hlt | hge
    · exact .inr (hbetween (m - 1) hlt (by omega))
    · exact .inl (by omega)
  apply h.put hplace
  · refine ⟨hshows.data, ?_, fun j ↦ ?_, hshows.parent⟩
    · rw [hshows.child]
      congr 1
      rw [eq_iff_iff]
      constructor
      · exact fun ⟨hlt, hdeeper⟩ ↦ ⟨by omega, hdeeper⟩
      · rintro ⟨hlt, hdeeper⟩
        rcases Nat.lt_succ_iff_lt_or_eq.mp hlt with hinside | heq
        · exact ⟨hinside, hdeeper⟩
        · rw [heq] at hdeeper
          omega
    · rw [h.length, Option.some.injEq]
      constructor
      · rintro rfl
        exact ⟨hplace, Nat.lt_succ_self m, hsame.symm, fun k hlt hkm ↦ hsame ▸ hbetween k hlt hkm⟩
      · rintro ⟨hlt, hjm, hlevel, -⟩
        by_contra hne
        have hdeeper := hbetween j hlt (by omega)
        omega
  · apply nodeShows_new hnew
    intro j
    rw [hshows.parent]
    constructor
    · rintro ⟨hj, hhigher, hrest⟩
      refine ⟨hj.trans hplace, by omega, fun k hjk hkm ↦ ?_⟩
      rcases Nat.lt_trichotomy k place with hk | rfl | hk
      · exact hsame ▸ hrest k hjk hk
      · exact hsame.ge
      · exact (hbetween k hk hkm).le
    · rintro ⟨hj, hhigher, hrest⟩
      have hbefore : j < place := by
        by_contra hge
        rcases Nat.eq_or_lt_of_not_lt hge with rfl | hlt
        · omega
        · have hdeeper := hbetween j hlt hj
          omega
      exact ⟨hbefore, by omega, fun k hjk hk ↦ hsame ▸ hrest k hjk (hk.trans hplace)⟩
  · intro i hi hne other hother
    apply hother.extend hi
    · rintro rfl
      rcases hlast with heq | hdeeper
      · omega
      · exact hdeeper.le
    · rintro ⟨-, -, hlevel, hrest⟩
      rcases Nat.lt_or_gt_of_ne hne with hlt | hgt
      · have hdeeper := hrest place hlt hplace
        omega
      · have hdeeper := hbetween i hgt hi
        omega

theorem Linked.insertBelow (h : Linked lines (m + 1) tree)
    (hshows : NodeShows lines (m + 1) m node)
    (hdeeper : levelAt lines m < levelAt lines (m + 1))
    (hnew : (newNodes [] [] lines)[m + 1]? = some newnode) :
    node.child = none ∧ Linked lines (m + 2) { tree with
      nodes := tree.nodes.set m { node with child := some tree.nodes.length } ++
        [{ newnode with parent := some m }]
      lastnode := some tree.nodes.length } := by
  refine ⟨by rw [hshows.child, if_neg fun hlt ↦ absurd hlt.1 (lt_irrefl _)], ?_⟩
  apply h.put (Nat.lt_succ_self m)
  · refine ⟨hshows.data, ?_, fun j ↦ ?_, hshows.parent⟩
    · rw [h.length, if_pos ⟨Nat.lt_succ_self _, hdeeper⟩]
    · rw [hshows.sibling]
      refine iff_of_false ?_ ?_
      · rintro ⟨hlt, hj, -⟩
        omega
      · rintro ⟨hlt, hj, hlevel, -⟩
        obtain rfl : j = m + 1 := by omega
        omega
  · apply nodeShows_new hnew
    intro j
    rw [Option.some.injEq]
    constructor
    · rintro rfl
      exact ⟨Nat.lt_succ_self _, hdeeper, fun k hjk hk ↦ by omega⟩
    · rintro ⟨hj, hhigher, hrest⟩
      by_contra hne
      have hle := hrest m (by omega) (Nat.lt_succ_self m)
      omega
  · intro i hi hne other hother
    apply hother.extend hi (fun heq ↦ absurd (Nat.succ_injective heq) hne)
    rintro ⟨-, -, hlevel, hrest⟩
    have hdeeper' := hrest m (by omega) (Nat.lt_succ_self m)
    omega

theorem exists_isParent (hfirst : levelAt lines 0 = 0) (hpos : 0 < levelAt lines i) :
    ∃ j, IsParent lines i j := by
  have hi : 0 < i := by
    by_contra hzero
    rw [Nat.eq_zero_of_not_pos hzero, hfirst] at hpos
    exact lt_irrefl _ hpos
  have hspec := @Nat.findGreatest_spec 0 (fun j ↦ levelAt lines j < levelAt lines i) _ (i - 1)
    (Nat.zero_le _) (by rw [hfirst]; exact hpos)
  have hle := @Nat.findGreatest_le (fun j ↦ levelAt lines j < levelAt lines i) _ (i - 1)
  refine ⟨_, by omega, hspec, fun k hlt hk ↦ not_lt.mp ?_⟩
  exact @Nat.findGreatest_is_greatest k (fun j ↦ levelAt lines j < levelAt lines i) _ (i - 1) hlt
    (by omega)

theorem Linked.climb (h : Linked lines m tree) (hfirst : levelAt lines 0 = 0)
    (hlevels : ∀ i < m, levelAt lines i ≤ 127) (hplace : place < m)
    (hbetween : ∀ k, place < k → k < m → levelAt lines m < levelAt lines k) {fuel : ℕ}
    (hfuel : place < fuel) :
    ∃ found node, Config.climb tree.nodes (levelAt lines m) fuel (some place) = .ok (found, node) ∧
      found < m ∧ tree.nodes[found]? = some node ∧ NodeShows lines m found node ∧
      levelAt lines found ≤ levelAt lines m ∧
      ∀ k, found < k → k < m → levelAt lines m < levelAt lines k := by
  induction fuel generalizing place with
  | zero => omega
  | succ fuel ih =>
    obtain ⟨node, hnode, hshows⟩ := h.nodes place hplace
    have hlevel := hshows.level (hlevels place hplace)
    simp only [Config.climb, nodeAt, hnode, bind, Except.bind, hlevel]
    by_cases hdeeper : levelAt lines m < levelAt lines place
    · rw [if_pos (by exact_mod_cast hdeeper)]
      obtain ⟨parent, hparent⟩ := exists_isParent hfirst (Nat.zero_lt_of_lt hdeeper)
      rw [(hshows.parent parent).mpr hparent]
      obtain ⟨hlt, -, hrest⟩ := hparent
      apply ih (hlt.trans hplace) _ (by omega)
      intro k hk hkm
      rcases Nat.lt_trichotomy k place with hbefore | rfl | hbehind
      · exact hdeeper.trans_le (hrest k hk hbefore)
      · exact hdeeper
      · exact hbetween k hbehind hkm
    · rw [if_neg (by exact_mod_cast hdeeper)]
      exact ⟨place, node, rfl, hplace, hnode, hshows, not_lt.mp hdeeper, hbetween⟩

theorem Linked.insertNode (h : Linked lines m tree) (outline : Outline) (hlines : outline.lines = lines)
    (hlevels : ∀ i < m + 1, levelAt lines i ≤ 127)
    (hnew : (newNodes [] [] lines)[m]? = some newnode) :
    ∃ tree', Config.insertNode tree newnode = .ok tree' ∧ Linked lines (m + 1) tree' := by
  have hnewlevel : newnode.level = levelAt lines m := by
    rw [(newNodes_spec [] [] lines hnew).1, charOfLevel_eq (hlevels m (Nat.lt_succ_self m))]
  have hfirst : levelAt lines 0 = 0 := hlines ▸ outline.first
  have hinside : m < lines.length := by
    rw [← length_newNodes [] [] lines]
    exact (List.getElem?_eq_some_iff.mp hnew).1
  obtain ⟨nodes, root, last⟩ := tree
  rcases m with _ | m
  · -- the first line is the root
    obtain rfl : nodes = [] := List.length_eq_zero_iff.mp h.length
    obtain rfl : root = none := h.root
    refine ⟨_, rfl, rfl, fun i hi ↦ ?_, rfl, rfl⟩
    obtain rfl : i = 0 := by omega
    refine ⟨newnode, rfl, ?_⟩
    have hsame : { newnode with parent := none } = newnode := by
      rw [← (newNodes_spec [] [] lines hnew).2]
      rfl
    have hshows := @nodeShows_new lines 0 newnode none hnew fun j ↦
      iff_of_false (fun hnone ↦ nomatch hnone) fun hparent ↦ Nat.not_lt_zero _ hparent.1
    rwa [hsame] at hshows
  · obtain ⟨node, hnode, hshows⟩ := h.nodes m (Nat.lt_succ_self m)
    have hlevel := hshows.level (hlevels m (by omega))
    obtain rfl : root = some 0 := h.root
    obtain rfl : last = some m := h.last
    dsimp only at hnode
    simp only [Config.insertNode, nodeAt, hnode, bind, Except.bind]
    by_cases hsame : levelAt lines m = levelAt lines (m + 1)
    · rw [if_pos (by rw [hlevel, hnewlevel, hsame])]
      exact h.insertBeside (Nat.lt_succ_self m) hnode hshows hsame (fun k hlt hk ↦ by omega) hnew 7
    · rw [if_neg (by rw [hlevel, hnewlevel]; exact_mod_cast hsame)]
      by_cases hdeeper : levelAt lines m < levelAt lines (m + 1)
      · obtain ⟨hnone, hlinked⟩ := h.insertBelow hshows hdeeper hnew
        rw [if_pos (by rw [hlevel, hnewlevel]; exact_mod_cast hdeeper), if_pos hnone]
        exact ⟨_, rfl, hlinked⟩
      · rw [if_neg (by rw [hlevel, hnewlevel]; exact_mod_cast hdeeper)]
        obtain ⟨found, anc, hclimb, hfound, hanc, hshows', hle, hbetween⟩ := h.climb hfirst
          (fun i hi ↦ hlevels i (by omega)) (Nat.lt_succ_self m) (fun k hlt hk ↦ by omega)
          (show m < nodes.length + 1 by rw [show nodes.length = m + 1 from h.length]; omega)
        rw [hnewlevel]
        simp only [hclimb]
        have hnext := outline.steps found (by rw [hlines]; omega)
        rw [hlines] at hnext
        have hother : found ≠ m := by
          rintro rfl
          omega
        have hbelow := hbetween (found + 1) (Nat.lt_succ_self _) (by omega)
        exact h.insertBeside hfound hanc hshows' (by omega) hbetween hnew 9

variable (outline : Outline)

theorem exists_linked (hm : m ≤ outline.lines.length)
    (hlevels : ∀ i < m, levelAt outline.lines i ≤ 127) :
    ∃ tree, ((newNodes [] [] outline.lines).take m).foldlM insertNode .empty = .ok tree ∧
      Linked outline.lines m tree := by
  induction m with
  | zero => exact ⟨_, rfl, rfl, fun i hi ↦ absurd hi (Nat.not_lt_zero i), rfl, rfl⟩
  | succ m ih =>
    obtain ⟨tree, hrun, hlinked⟩ := ih (by omega) fun i hi ↦ hlevels i (by omega)
    have hinside : m < (newNodes [] [] outline.lines).length := by
      rw [length_newNodes]
      exact hm
    obtain ⟨tree', hinsert, hlinked'⟩ := hlinked.insertNode outline rfl hlevels
      (List.getElem?_eq_getElem hinside)
    refine ⟨tree', ?_, hlinked'⟩
    rw [List.take_succ_eq_append_getElem hinside, List.foldlM_append, hrun]
    change insertNode tree _ >>= pure = _
    rw [bind_pure, hinsert]

/-- The levels and the nodes of the lines. -/
def entries (lines : List OutlineLine) : List (ℕ × LccClassNode) :=
  (lines.map OutlineLine.level).zip (newNodes [] [] lines)

theorem length_entries (lines : List OutlineLine) : (entries lines).length = lines.length := by
  rw [entries, List.length_zip, List.length_map, length_newNodes, min_self]

theorem getElem?_entries (hnode : (newNodes [] [] lines)[i]? = some node) :
    (entries lines)[i]? = some (levelAt lines i, node) := by
  have hi : i < lines.length := by
    rw [← length_newNodes [] [] lines]
    exact (List.getElem?_eq_some_iff.mp hnode).1
  rw [entries, List.getElem?_zip_eq_some, List.getElem?_map, levelAt, List.getElem?_eq_getElem hi]
  exact ⟨rfl, hnode⟩

theorem take_entries {below stop : ℕ} {entry : ℕ × LccClassNode}
    (hentry : (entries lines)[i]? = some entry) (hbelow : i < below) (hstop : below ≤ stop) :
    ((entries lines).drop i).take (stop - i) = entry ::
      ((entries lines).drop (i + 1)).take (below - (i + 1)) ++
        ((entries lines).drop below).take (stop - below) := by
  obtain ⟨hi, rfl⟩ := List.getElem?_eq_some_iff.mp hentry
  rw [List.drop_eq_getElem_cons hi, show stop - i = (below - (i + 1) + (stop - below)) + 1 by omega,
    List.take_succ_cons, List.take_add, List.drop_drop,
    show i + 1 + (below - (i + 1)) = below by omega, List.cons_append]

theorem Linked.exists_forest (h : Linked lines m tree)
    (hsteps : ∀ i, i + 1 < m → levelAt lines (i + 1) ≤ levelAt lines i + 1) (hi : i < m) :
    ∃ stop forest, i < stop ∧ stop ≤ m ∧ (stop = m ∨ levelAt lines stop < levelAt lines i) ∧
      (∀ k, i ≤ k → k < stop → levelAt lines i ≤ levelAt lines k) ∧
      Shows tree.nodes (some i) forest ∧
      forest.preorder (levelAt lines i) = ((entries lines).drop i).take (stop - i) := by
  induction hrest : m - i using Nat.strong_induction_on generalizing i with
  | _ rest ih =>
    subst hrest
    obtain ⟨node, hnode, hshows⟩ := h.nodes i hi
    have hentry := getElem?_entries hshows.data
    obtain ⟨below, children, hbelow, hle, hends, hdeeper, hchildren, horder⟩ : ∃ below children,
        i < below ∧ below ≤ m ∧ (below = m ∨ levelAt lines below ≤ levelAt lines i) ∧
        (∀ k, i < k → k < below → levelAt lines i < levelAt lines k) ∧
        Shows tree.nodes node.child children ∧ children.preorder (levelAt lines i + 1) =
          ((entries lines).drop (i + 1)).take (below - (i + 1)) := by
      by_cases hchild : i + 1 < m ∧ levelAt lines i < levelAt lines (i + 1)
      · have hlevel : levelAt lines (i + 1) = levelAt lines i + 1 := by
          have hstep := hsteps i hchild.1
          omega
        obtain ⟨below, children, hlt, hle, hends, hall, hchildren, horder⟩ :=
          ih (m - (i + 1)) (by omega) hchild.1 rfl
        rw [hlevel] at hends hall horder
        refine ⟨below, children, by omega, hle, ?_, fun k hk hkb ↦ hall k hk hkb, ?_, horder⟩
        · exact hends.imp_right Nat.le_of_lt_succ
        · rw [hshows.child, if_pos hchild]
          exact hchildren
      · refine ⟨i + 1, .nil, Nat.lt_succ_self i, hi, ?_, fun k hk hkb ↦ by omega, ?_, ?_⟩
        · rcases Nat.eq_or_lt_of_le (Nat.succ_le_of_lt hi) with heq | hlt
          · exact .inl heq
          · exact .inr (not_lt.mp fun hdeeper ↦ hchild ⟨hlt, hdeeper⟩)
        · rw [hshows.child, if_neg hchild]
          exact .nil
        · rw [Nat.sub_self, List.take_zero]
          rfl
    obtain ⟨stop, siblings, hstop, hstople, hstopends, hall, hsiblings, horder'⟩ : ∃ stop siblings,
        below ≤ stop ∧ stop ≤ m ∧ (stop = m ∨ levelAt lines stop < levelAt lines i) ∧
        (∀ k, below ≤ k → k < stop → levelAt lines i ≤ levelAt lines k) ∧
        Shows tree.nodes node.sibling siblings ∧ siblings.preorder (levelAt lines i) =
          ((entries lines).drop below).take (stop - below) := by
      by_cases hsibling : below < m ∧ levelAt lines below = levelAt lines i
      · obtain ⟨stop, siblings, hlt, hle', hends', hall, hsiblings, horder'⟩ :=
          ih (m - below) (by omega) hsibling.1 rfl
        rw [hsibling.2] at hends' hall horder'
        refine ⟨stop, siblings, hlt.le, hle', hends', hall, ?_, horder'⟩
        rwa [(hshows.sibling below).mpr ⟨hbelow, hsibling.1, hsibling.2, hdeeper⟩]
      · refine ⟨below, .nil, le_rfl, hle, ?_, fun k hk hkb ↦ by omega, ?_, ?_⟩
        · rcases Nat.eq_or_lt_of_le hle with heq | hlt
          · exact .inl heq
          · have hne : levelAt lines below ≠ levelAt lines i := fun heq ↦ hsibling ⟨hlt, heq⟩
            have hle' := hends.resolve_left hlt.ne
            exact .inr (lt_of_le_of_ne hle' hne)
        · have hnone : node.sibling = none := by
            rw [Option.eq_none_iff_forall_ne_some]
            intro j hj
            obtain ⟨hij, hjm, hsame, hbetween⟩ := (hshows.sibling j).mp hj
            rcases Nat.lt_trichotomy j below with hlt | rfl | hgt
            · exact absurd (hdeeper j hij hlt) (by omega)
            · exact hsibling ⟨hjm, hsame⟩
            · have hle' := hends.resolve_left (by omega)
              exact absurd (hbetween below hbelow hgt) (not_lt.mpr hle')
          rw [hnone]
          exact .nil
        · rw [Nat.sub_self, List.take_zero]
          rfl
    refine ⟨stop, .cons node.unlinked children siblings, by omega, hstople, hstopends, ?_,
      .cons hnode hchildren hsiblings, ?_⟩
    · intro k hk hks
      rcases Nat.eq_or_lt_of_le hk with rfl | hlt
      · exact le_rfl
      · rcases Nat.lt_or_ge k below with hkb | hkb
        · exact (hdeeper k hlt hkb).le
        · exact hall k hkb hks
    · rw [Forest.preorder, horder, horder', take_entries hentry hbelow hstop]

variable {nodes : List LccClassNode}

theorem lccGetdesc_spec {pointer : Option ℕ} {forest : Forest} (h : Shows nodes pointer forest)
    (alpha : List Char) (num : ℚ) (buffer : List Char) {fuel : ℕ}
    (hfuel : forest.size < fuel) : lccGetdesc nodes alpha num fuel buffer pointer =
      .ok (buffer ++ (forest.chain alpha num).flatMap ('\\' :: ·)) := by
  induction h generalizing buffer fuel with
  | nil =>
    obtain ⟨fuel, rfl⟩ := Nat.exists_eq_add_of_lt hfuel
    simp [lccGetdesc, Forest.chain]
  | @cons place node children siblings hnode _ _ ihchildren ihsiblings =>
    rw [Forest.size] at hfuel
    obtain ⟨fuel, rfl⟩ : ∃ rest, fuel = rest + 1 := ⟨fuel - 1, by omega⟩
    have hsame : lccInrange node.unlinked alpha num = lccInrange node alpha num := rfl
    simp only [lccGetdesc, hnode, Forest.chain, hsame]
    by_cases hrange : lccInrange node alpha num = true
    · rw [if_pos hrange, if_pos hrange, ihchildren _ (by omega), List.flatMap_cons, List.append_assoc]
      rfl
    · rw [if_neg hrange, if_neg hrange, ihsiblings _ (by omega)]

theorem climb_ne_ok {level : ℤ} (hlevel : level < 0) (hnodes : ∀ node ∈ nodes, 0 ≤ node.level)
    (fuel : ℕ) (pointer : Option ℕ)
    (result : ℕ × LccClassNode) : climb nodes level fuel pointer ≠ .ok result := by
  induction fuel generalizing pointer with
  | zero => exact fun hresult ↦ nomatch hresult
  | succ fuel ih =>
    intro hresult
    rw [climb] at hresult
    rcases pointer with _ | place
    · cases hresult
    · rcases hnode : nodes[place]? with _ | node
      · simp [nodeAt, hnode, bind, Except.bind] at hresult
      · have hnonneg := hnodes node (List.mem_of_getElem? hnode)
        simp only [nodeAt, hnode, bind, Except.bind, if_pos (show node.level > level by omega)] at hresult
        exact ih _ hresult

theorem Linked.insertNode_ne_ok (h : Linked lines m tree) (hlevels : ∀ i < m, levelAt lines i ≤ 127)
    (hpos : 0 < m) (hlevel : levelAt lines m = 128)
    (hnew : (newNodes [] [] lines)[m]? = some newnode) (result : ClassTree) :
    Config.insertNode tree newnode ≠ .ok result := by
  have hnegative : newnode.level = -128 := by
    rw [(newNodes_spec [] [] lines hnew).1, hlevel]
    decide
  have hnodes : ∀ node ∈ tree.nodes, 0 ≤ node.level := by
    intro node hmem
    obtain ⟨i, hi, rfl⟩ := List.getElem_of_mem hmem
    obtain ⟨node, hnode, hshows⟩ := h.nodes i (h.length ▸ hi)
    rw [List.getElem?_eq_getElem hi, Option.some.injEq] at hnode
    rw [hnode, hshows.level (hlevels i (h.length ▸ hi))]
    exact Int.natCast_nonneg _
  obtain ⟨last, hlast, hshows⟩ := h.nodes (m - 1) (by omega)
  have hnonneg := hnodes last (List.mem_of_getElem? hlast)
  intro hresult
  rw [Config.insertNode, h.root, h.last, if_neg hpos.ne', if_neg hpos.ne'] at hresult
  simp only [nodeAt, hlast, bind, Except.bind, if_neg (show ¬last.level = newnode.level by omega),
    if_neg (show ¬last.level < newnode.level by omega)] at hresult
  rcases hclimb : Config.climb tree.nodes newnode.level (tree.nodes.length + 1) (some (m - 1)) with stop | found
  · rw [hclimb] at hresult
    cases hresult
  · exact climb_ne_ok (by omega) hnodes _ _ found hclimb

theorem levelAt_of_mem {line : OutlineLine} (hline : line ∈ lines) :
    ∃ i < lines.length, levelAt lines i = line.level := by
  obtain ⟨i, hi, rfl⟩ := List.getElem_of_mem hline
  exact ⟨i, hi, by rw [levelAt, List.getElem?_eq_getElem hi]; rfl⟩

/-- The tree has a node for each line that was read. -/
theorem length_foldlM_insertNode {tree tree' : ClassTree}
    (h : nodes.foldlM insertNode tree = .ok tree') :
    tree'.nodes.length = tree.nodes.length + nodes.length := by
  induction nodes generalizing tree with
  | nil =>
    cases h
    rfl
  | cons node nodes ih =>
    rw [List.foldlM_cons] at h
    cases hinsert : insertNode tree node with
    | error stop =>
      rw [hinsert] at h
      cases h
    | ok inserted =>
      rw [hinsert] at h
      rw [ih h, length_insertNode hinsert, List.length_cons]
      omega

theorem treeRight_of_fits (hfits : ∀ line ∈ outline.lines, line.Fits) :
    TreeRight outline.lines := by
  have hle (i : ℕ) : levelAt outline.lines i ≤ 127 := by
    rw [levelAt]
    cases hline : outline.lines[i]? with
    | none => exact Nat.zero_le _
    | some line => exact (hfits line (List.mem_of_getElem? hline)).level
  obtain ⟨tree, hrun, h⟩ := exists_linked outline le_rfl fun i _ ↦ hle i
  rw [List.take_of_length_le (length_newNodes _ _ _).le] at hrun
  obtain ⟨forest, hshows, horder⟩ : ∃ forest, Shows tree.nodes tree.lccroot forest ∧
      forest.preorder 0 = entries outline.lines := by
    by_cases hnil : outline.lines.length = 0
    · refine ⟨.nil, ?_, ?_⟩
      · rw [h.root, if_pos hnil]
        exact .nil
      · rw [List.length_eq_zero_iff.mp hnil]
        rfl
    · obtain ⟨stop, forest, -, -, hstop, -, hshows, horder⟩ :=
        h.exists_forest outline.steps (Nat.pos_of_ne_zero hnil)
      rw [outline.first] at hstop horder
      obtain rfl := hstop.resolve_right (Nat.not_lt_zero _)
      refine ⟨forest, ?_, ?_⟩
      · rw [h.root, if_neg hnil]
        exact hshows
      · rw [horder, List.drop_zero, Nat.sub_zero, List.take_of_length_le (length_entries _).le]
  have hread := fgetsLines_outlineFile outline.written fun line hline ↦ (hfits line hline).length
  have hscan : List.Forall₂ (fun text line ↦ scanLine text = .ok line)
      (fgetsLines [] (outlineFile outline.lines)) outline.lines := by
    rw [hread, List.forall₂_map_left_iff, List.forall₂_same]
    intro line hline
    exact (scanLine_text (outline.written line hline) line).mpr ⟨(hfits line hline).range, rfl⟩
  have hbuild := (lccBuildclasstree_iff _ tree).mpr ⟨outline.lines, hscan, hrun⟩
  exact ⟨tree, forest, hbuild, h.length, hshows, horder, fun buffer alpha num ↦
    ⟨forest.size + 1, lccGetdesc_spec hshows alpha num buffer (Nat.lt_succ_self _)⟩⟩

/-- A tree with as many nodes as the outline has lines is built from these lines. -/
theorem lines_of_build {lines : List OutlineLine} (hwritten : ∀ line ∈ lines, line.Written) {tree : ClassTree}
    (hbuild : lccBuildclasstree (outlineFile lines) = .ok tree) (hlength : tree.nodes.length = lines.length) :
    (newNodes [] [] lines).foldlM insertNode .empty = .ok tree ∧
      ∀ line ∈ lines, line.text.length ≤ 509 ∧ line.range.Fits := by
  obtain ⟨scanned, hscan, hrun⟩ := (lccBuildclasstree_iff _ tree).mp hbuild
  have hcount := length_foldlM_insertNode hrun
  rw [length_newNodes, ← hscan.length_eq, hlength] at hcount
  have hshort : ∀ line ∈ lines, line.text.length ≤ 509 := by
    intro line hline
    by_contra hlong
    have hmore := (length_fgetsLines_outlineFile lines).2 ⟨line, hline, not_le.mp hlong⟩
    rw [ClassTree.empty, List.length_nil] at hcount
    omega
  rw [fgetsLines_outlineFile hwritten hshort, List.forall₂_map_left_iff] at hscan
  have hsame : List.Forall₂ (fun line other ↦ line.range.Fits ∧ other = line) lines scanned :=
    ((List.forall₂_and_left _ _).mpr ⟨hwritten, hscan⟩).imp fun line other ⟨hline, hother⟩ ↦
      (scanLine_text hline other).mp hother
  have hlines : scanned = lines :=
    (List.forall₂_eq_eq_eq ▸ hsame.imp fun _ _ h ↦ h.2.symm : lines = scanned).symm
  subst hlines
  refine ⟨hrun, fun line hline ↦ ⟨hshort line hline, ?_⟩⟩
  exact ((List.forall₂_same.mp hsame) line hline).1

theorem level_le_of_build {tree : ClassTree}
    (hrun : (newNodes [] [] outline.lines).foldlM insertNode .empty = .ok tree) :
    ∀ line ∈ outline.lines, line.level ≤ 127 := by
  by_contra hdeep
  simp only [not_forall, not_le] at hdeep
  obtain ⟨line, hline, hlevel⟩ := hdeep
  have hsome : ∃ i, 127 < levelAt outline.lines i := by
    obtain ⟨i, -, hi⟩ := levelAt_of_mem hline
    exact ⟨i, hi ▸ hlevel⟩
  -- the first line that is too deep is one level below the line before it
  obtain ⟨m, hm, hbefore⟩ : ∃ m, 127 < levelAt outline.lines m ∧
      ∀ i < m, levelAt outline.lines i ≤ 127 :=
    ⟨Nat.find hsome, Nat.find_spec hsome, fun i hi ↦ not_lt.mp (Nat.find_min hsome hi)⟩
  have hpos : 0 < m := by
    rcases m with _ | m
    · rw [outline.first] at hm
      omega
    · exact Nat.succ_pos m
  have hinside : m < outline.lines.length := by
    by_contra hbeyond
    rw [levelAt, List.getElem?_eq_none (not_lt.mp hbeyond)] at hm
    exact absurd hm (by decide)
  have hstep := outline.steps (m - 1) (by omega)
  rw [Nat.sub_add_cancel hpos] at hstep
  have hlast := hbefore (m - 1) (by omega)
  obtain ⟨part, hpart, hlinked⟩ := exists_linked outline hinside.le hbefore
  have hnew : m < (newNodes [] [] outline.lines).length := by rwa [length_newNodes]
  rw [← List.take_append_drop m (newNodes [] [] outline.lines),
    List.foldlM_append, hpart, List.drop_eq_getElem_cons hnew] at hrun
  rcases hinsert : insertNode part (newNodes [] [] outline.lines)[m] with stop | result
  · simp only [List.foldlM_cons, hinsert, bind, Except.bind, reduceCtorEq] at hrun
  · exact hlinked.insertNode_ne_ok hbefore hpos (by omega) (List.getElem?_eq_getElem hnew) result hinsert

theorem fits_of_treeRight (h : TreeRight outline.lines) : ∀ line ∈ outline.lines, line.Fits := by
  obtain ⟨tree, -, hbuild, hlength, -⟩ := h
  obtain ⟨hrun, hread⟩ := lines_of_build outline.written hbuild hlength
  intro line hline
  obtain ⟨hshort, hletters⟩ := hread line hline
  exact ⟨level_le_of_build outline hrun line hline, hshort, hletters⟩

/-- Each line below the one before it. -/
def deepLines : List OutlineLine :=
  (List.range 129).map fun level ↦ ⟨level, .letters ['A'] none, []⟩

theorem levelAt_deepLines (hi : i < 129) : levelAt deepLines i = i := by
  rw [levelAt, deepLines, List.getElem?_map, List.getElem?_range hi]
  rfl

theorem written_deepLines : ∀ line ∈ deepLines, line.Written := by
  intro line hline
  obtain ⟨level, -, rfl⟩ := List.mem_map.mp hline
  have hletter : Letters ['A'] := by
    refine ⟨List.cons_ne_nil _ _, fun c hc ↦ ?_⟩
    rw [List.mem_singleton.mp hc]
    rfl
  exact ⟨⟨hletter, fun _ hnone ↦ by cases hnone⟩, List.not_mem_nil, List.not_mem_nil⟩

def deepOutline : Outline where
  lines := deepLines
  first := rfl
  steps := by
    intro i hi
    rw [deepLines, List.length_map, List.length_range] at hi
    rw [levelAt_deepLines hi, levelAt_deepLines (Nat.lt_of_succ_lt hi)]
  written := written_deepLines

end Cheshire.Config
