import Cheshire.Fault

/-!
# Lists of children

The nodes of an encoded unit are linked in memory: a node points to its first and its last child, and every
child to the next one.  `Attach` puts a child at the end of the list through the pointer to the last one.
What it is given may have siblings behind it.
-/

namespace Cheshire.Asn

open Function

/-- The nodes, by the fields of `ASN_NODE` that link them; so many addresses were given out. -/
structure Heap where
  allocated : ℕ
  parent : ℕ → Option ℕ
  next : ℕ → Option ℕ
  head : ℕ → Option ℕ
  tail : ℕ → Option ℕ

/-- `for (astp = child; astp != NULL; astp = astp->next) astp->parent = parent;` -/
def setParents (parent : ℕ) : ℕ → Option ℕ → Heap → Exec Heap
  | _, none, heap => .ok heap
  | 0, some _, _ => .error .unfinished
  | fuel + 1, some astp, heap =>
    setParents parent fuel (heap.next astp)
      { heap with parent := update heap.parent astp (some parent) }

/-- `Attach`: the pointer that it returns, and the nodes.  A list that ends has at most as many nodes as were
allocated. -/
def attach (parent child : Option ℕ) (heap : Heap) : Exec (Option ℕ × Heap) :=
  match parent, child with
  | none, _ => .ok (none, heap)
  | some _, none => .ok (none, heap)
  | some parent, some child => do
    let heap ← setParents parent heap.allocated (some child) heap
    match heap.head parent with
    | none => .ok (some parent,
        { heap with
          head := update heap.head parent (some child)
          tail := update heap.tail parent (some child) })
    | some _ => do
      let last ← deref (heap.tail parent)
      .ok (some parent,
        { heap with
          next := update heap.next last (some child)
          tail := update heap.tail parent (some child) })

/-- One call of `Attach` for each child. -/
def attachAll (parent : ℕ) (children : List (Option ℕ)) (heap : Heap) : Exec Heap :=
  children.foldlM (fun heap child ↦ (attach (some parent) child heap).map Prod.snd) heap

/-- A pointer leads to these nodes, one after the other, and to no more. -/
def Chain (next : ℕ → Option ℕ) : Option ℕ → List ℕ → Prop
  | pointer, [] => pointer = none
  | pointer, node :: chain => pointer = some node ∧ Chain next (next node) chain

/-- The list of the children, with the pointer to its end. -/
def ListsChildren (heap : Heap) (parent : ℕ) (children : List ℕ) : Prop :=
  Chain heap.next (heap.head parent) children ∧ heap.tail parent = children.getLast?

/-- A new node, and chains of siblings to attach to it, an empty one for a null pointer.  No node is in them
twice. -/
structure Attachment where
  heap : Heap
  parent : ℕ
  chains : List (List ℕ)
  new : heap.head parent = none ∧ heap.tail parent = none
  linked : ∀ chain ∈ chains, Chain heap.next chain.head? chain
  allocated : ∀ node ∈ chains.flatten, node < heap.allocated
  nodup : chains.flatten.Nodup

variable {chain : List ℕ}

section

variable {next next' : ℕ → Option ℕ} {pointer : Option ℕ}

theorem Chain.congr (h : Chain next pointer chain)
    (hnext : ∀ node ∈ chain, next' node = next node) : Chain next' pointer chain := by
  induction chain generalizing pointer with
  | nil => exact h
  | cons node chain ih =>
    rw [List.forall_mem_cons] at hnext
    refine ⟨h.1, ih ?_ hnext.2⟩
    rw [hnext.1]
    exact h.2

theorem Chain.head?_eq (h : Chain next pointer chain) : pointer = chain.head? := by
  cases chain with
  | nil => exact h
  | cons node chain => exact h.1

theorem Chain.unique {chain' : List ℕ} (h : Chain next pointer chain)
    (h' : Chain next pointer chain') : chain = chain' := by
  induction chain generalizing pointer chain' with
  | nil => exact (List.head?_eq_none_iff.mp (h'.head?_eq.symm.trans h)).symm
  | cons node chain ih =>
    obtain ⟨rfl, hchain⟩ := h
    cases chain' with
    | nil => cases h'
    | cons node' chain' =>
      obtain ⟨hnode, hchain'⟩ := h'
      cases hnode
      rw [ih hchain hchain']

theorem Chain.append {dropped rest : List ℕ} {last : ℕ}
    (h : Chain next pointer (chain ++ last :: dropped))
    (hbefore : ∀ node ∈ chain, next' node = next node) (hlast : next' last = rest.head?)
    (hrest : Chain next' rest.head? rest) : Chain next' pointer (chain ++ last :: rest) := by
  induction chain generalizing pointer with
  | nil => exact ⟨h.1, hlast ▸ hrest⟩
  | cons node chain ih =>
    rw [List.forall_mem_cons] at hbefore
    refine ⟨h.1, ih ?_ hbefore.2⟩
    rw [hbefore.1]
    exact h.2

end

variable {heap : Heap} {parent : ℕ}

theorem setParents_spec {pointer : Option ℕ} {chain : List ℕ} (h : Chain heap.next pointer chain) {fuel : ℕ}
    (hfuel : chain.length ≤ fuel) :
    ∃ parents, setParents parent fuel pointer heap = .ok { heap with parent := parents } := by
  induction chain generalizing pointer fuel heap with
  | nil =>
    cases h
    exact ⟨heap.parent, by cases fuel <;> rfl⟩
  | cons astp chain ih =>
    obtain ⟨rfl, hchain⟩ := h
    cases fuel with
    | zero => exact absurd hfuel (by simp)
    | succ fuel =>
      exact @ih { heap with parent := update heap.parent astp (some parent) } _ hchain _
        (Nat.le_of_succ_le_succ hfuel)

/-- The children of a node are those of `front` and of `last`, and the pointer to the end is at the first one
of `last`. -/
structure Holds (heap : Heap) (parent : ℕ) (front last : List ℕ) : Prop where
  children : Chain heap.next (heap.head parent) (front ++ last)
  tail : heap.tail parent = last.head?
  front_nil : last = [] → front = []

/-- What a call makes of the two parts: of the last chain only the first node stays. -/
def follow (parts : List ℕ × List ℕ) (chain : List ℕ) : List ℕ × List ℕ :=
  if chain = [] then parts else (parts.1 ++ parts.2.take 1, chain)

theorem attach_spec {front last : List ℕ} (h : Holds heap parent front last)
    (hchain : Chain heap.next chain.head? chain) (hnodup : (front ++ last ++ chain).Nodup)
    (hlength : chain.length ≤ heap.allocated) :
    ∃ result heap', attach (some parent) chain.head? heap = .ok (result, heap') ∧
      heap'.allocated = heap.allocated ∧
      Holds heap' parent (follow (front, last) chain).1 (follow (front, last) chain).2 ∧
      ∀ node ∉ last, heap'.next node = heap.next node := by
  cases chain with
  | nil => exact ⟨none, heap, rfl, rfl, h, fun _ _ ↦ rfl⟩
  | cons child rest =>
    obtain ⟨parents, hparents⟩ := @setParents_spec heap parent _ _ hchain _ hlength
    obtain ⟨hchildren, htail, hfront⟩ := h
    rw [List.head?_cons] at hparents ⊢
    simp only [attach, hparents, bind, Except.bind]
    cases last with
    | nil =>
      obtain rfl := hfront rfl
      have hhead : heap.head parent = none := hchildren
      simp only [hhead]
      refine ⟨_, _, rfl, rfl, ⟨?_, update_self .., nofun⟩, fun _ _ ↦ rfl⟩
      simp only [update_self]
      exact hchain
    | cons first more =>
      obtain ⟨head, hhead⟩ : ∃ head, heap.head parent = some head := by
        rw [hchildren.head?_eq, List.head?_append, List.head?_cons]
        exact Option.ne_none_iff_exists'.mp (by simp)
      simp only [hhead, htail, List.head?_cons, deref]
      refine ⟨_, _, rfl, rfl, ⟨?_, update_self .., nofun⟩, fun node hmem ↦ ?_⟩
      · have happart := List.nodup_append.mp hnodup
        change Chain _ (heap.head parent) ((front ++ [first]) ++ child :: rest)
        rw [List.append_assoc]
        refine hchildren.append (fun node hmem ↦ ?_) ?_ (hchain.congr fun node hmem ↦ ?_)
        · refine update_of_ne ?_ ..
          exact (List.nodup_append.mp happart.1).2.2 _ hmem _ List.mem_cons_self
        · exact update_self ..
        · refine update_of_ne ?_ ..
          exact (happart.2.2 _ (by simp) _ hmem).symm
      · exact update_of_ne (List.ne_of_not_mem_cons hmem) ..

/-- The two parts of the list of children in the end. -/
def parts (chains : List (List ℕ)) : List ℕ × List ℕ := chains.foldl follow ([], [])

theorem parts_append (chains : List (List ℕ)) (chain : List ℕ) :
    parts (chains ++ [chain]) = follow (parts chains) chain := by
  rw [parts, List.foldl_append]
  rfl

theorem follow_sublist (front last chain : List ℕ) :
    ((follow (front, last) chain).1 ++ (follow (front, last) chain).2).Sublist (front ++ last ++ chain) := by
  rw [follow]
  split_ifs with hchain
  · exact List.sublist_append_left ..
  · exact ((List.take_sublist 1 last).append_left front).append_right chain

theorem parts_sublist (chains : List (List ℕ)) :
    ((parts chains).1 ++ (parts chains).2).Sublist chains.flatten := by
  induction chains using List.reverseRecOn with
  | nil => exact List.Sublist.refl _
  | append_singleton chains chain ih =>
    rw [parts_append, List.flatten_append, List.flatten_singleton]
    exact (follow_sublist _ _ chain).trans (ih.append_right chain)

theorem attachAll_spec {chains : List (List ℕ)} (hnew : heap.head parent = none ∧ heap.tail parent = none)
    (hlinked : ∀ chain ∈ chains, Chain heap.next chain.head? chain)
    (hlength : ∀ chain ∈ chains, chain.length ≤ heap.allocated) (hnodup : chains.flatten.Nodup) :
    ∃ heap', attachAll parent (chains.map List.head?) heap = .ok heap' ∧
      heap'.allocated = heap.allocated ∧ Holds heap' parent (parts chains).1 (parts chains).2 ∧
      ∀ node ∉ chains.flatten, heap'.next node = heap.next node := by
  induction chains using List.reverseRecOn with
  | nil => exact ⟨heap, rfl, rfl, ⟨hnew.1, hnew.2, fun _ ↦ rfl⟩, fun _ _ ↦ rfl⟩
  | append_singleton chains chain ih =>
    rw [List.flatten_append, List.flatten_singleton] at hnodup ⊢
    rw [List.forall_mem_append, List.forall_mem_singleton] at hlinked hlength
    obtain ⟨heap₁, hrun, hallocated, hheld, hothers⟩ :=
      ih hlinked.1 hlength.1 (hnodup.sublist (List.sublist_append_left ..))
    have hchain : Chain heap₁.next chain.head? chain := hlinked.2.congr fun node hmem ↦
      hothers node fun hother ↦ (List.nodup_append.mp hnodup).2.2 node hother node hmem rfl
    obtain ⟨result, heap₂, hrun', hallocated', hheld', hothers'⟩ := attach_spec hheld hchain
      (hnodup.sublist ((parts_sublist chains).append_right chain)) (hallocated ▸ hlength.2)
    refine ⟨heap₂, ?_, hallocated'.trans hallocated, ?_, fun node hmem ↦ ?_⟩
    · rw [attachAll, List.map_append, List.foldlM_append, ← attachAll, hrun]
      simp only [bind, Except.bind, List.map_cons, List.map_nil, List.foldlM_cons, List.foldlM_nil, hrun']
      rfl
    · rw [parts_append]
      exact hheld'
    · rw [List.mem_append, not_or] at hmem
      rw [hothers' node fun hlast ↦ hmem.1 ((parts_sublist chains).subset (List.mem_append_right _ hlast)),
        hothers node hmem.1]

theorem parts_length (chains : List (List ℕ)) :
    (parts chains).1.length + (parts chains).2.length ≤ chains.flatten.length ∧
      ((parts chains).1.length + (parts chains).2.length = chains.flatten.length ∧
          (parts chains).2.length ≤ 1 ↔
        ∀ chain ∈ chains, chain.length ≤ 1) := by
  induction chains using List.reverseRecOn with
  | nil => simp [parts]
  | append_singleton chains chain ih =>
    obtain ⟨hle, hiff⟩ := ih
    rw [parts_append, List.flatten_append, List.flatten_singleton, List.length_append,
      List.forall_mem_append, List.forall_mem_singleton, ← hiff, follow]
    split_ifs with hchain
    · subst hchain
      simpa using hle
    · have hpos := List.length_pos_iff.mpr hchain
      simp only [List.length_append, List.length_take]
      omega

theorem parts_eq_flatten {chains : List (List ℕ)} (h : ∀ chain ∈ chains, chain.length ≤ 1) :
    (parts chains).1 ++ (parts chains).2 = chains.flatten := by
  refine (parts_sublist chains).eq_of_length ?_
  rw [List.length_append]
  exact ((parts_length chains).2.mpr h).1

theorem head?_eq_getLast?_iff (hnodup : chain.Nodup) :
    chain.head? = chain.getLast? ↔ chain.length ≤ 1 := by
  cases chain with
  | nil => exact iff_of_true rfl (Nat.zero_le 1)
  | cons first more =>
    cases more with
    | nil => exact iff_of_true rfl le_rfl
    | cons second more =>
      refine iff_of_false (fun h ↦ ?_) (by simp)
      rw [List.head?_cons, List.getLast?_cons_cons] at h
      exact (List.nodup_cons.mp hnodup).1 (List.mem_of_getLast? h.symm)

namespace Attachment

theorem length_le_allocated (a : Attachment) : ∀ chain ∈ a.chains, chain.length ≤ a.heap.allocated := by
  intro chain hchain
  have hsubset : chain ⊆ List.range a.heap.allocated := fun node hmem ↦
    List.mem_range.mpr (a.allocated node (List.mem_flatten_of_mem hchain hmem))
  have hnodup := (List.nodup_flatten.mp a.nodup).1 chain hchain
  simpa using (List.subperm_of_subset hnodup hsubset).length_le

/-- The children are the concatenation of what was attached, with the pointer at their end, exactly when
every call gets a single node or a null pointer. -/
theorem attachAll_iff (a : Attachment) :
    (∃ heap, attachAll a.parent (a.chains.map List.head?) a.heap = .ok heap ∧
        ListsChildren heap a.parent a.chains.flatten) ↔
      ∀ chain ∈ a.chains, chain.length ≤ 1 := by
  obtain ⟨heap, hrun, -, ⟨hchildren, htail, hfront⟩, -⟩ :=
    attachAll_spec a.new a.linked a.length_le_allocated a.nodup
  have hend : ((parts a.chains).1 ++ (parts a.chains).2).getLast? = (parts a.chains).2.getLast? := by
    rw [List.getLast?_append]
    cases hlast : (parts a.chains).2 with
    | nil =>
      rw [hfront hlast]
      rfl
    | cons first more => rw [List.getLast?_cons, Option.some_or]
  have hnodup : (parts a.chains).2.Nodup :=
    (List.nodup_append.mp (a.nodup.sublist (parts_sublist a.chains))).2.1
  constructor
  · rintro ⟨heap', hrun', hchildren', htail'⟩
    obtain rfl : heap = heap' := Except.ok.inj (hrun.symm.trans hrun')
    have hall : (parts a.chains).1 ++ (parts a.chains).2 = a.chains.flatten := hchildren.unique hchildren'
    rw [← hall, hend] at htail'
    refine (parts_length a.chains).2.mp ⟨by rw [← List.length_append, hall], ?_⟩
    exact (head?_eq_getLast?_iff hnodup).mp (htail.symm.trans htail')
  · intro hsingle
    have hall := parts_eq_flatten hsingle
    refine ⟨heap, hrun, hall ▸ hchildren, ?_⟩
    rw [htail, ← hall, hend, head?_eq_getLast?_iff hnodup]
    exact ((parts_length a.chains).2.mpr hsingle).2

/-- A chain of two nodes, and a third node. -/
def pairAndOne : Attachment where
  heap := ⟨4, fun _ ↦ none, update (fun _ ↦ none) 1 (some 2), fun _ ↦ none, fun _ ↦ none⟩
  parent := 0
  chains := [[1, 2], [3]]
  new := ⟨rfl, rfl⟩
  linked chain hmem := by
    rcases List.mem_pair.mp hmem with rfl | rfl
    · exact ⟨rfl, rfl, rfl⟩
    · exact ⟨rfl, rfl⟩
  allocated := by decide
  nodup := by decide

/-- The second node of the chain is lost when the third one is attached. -/
theorem not_listsChildren_pairAndOne :
    ¬∃ heap, attachAll pairAndOne.parent (pairAndOne.chains.map List.head?) pairAndOne.heap = .ok heap ∧
      ListsChildren heap pairAndOne.parent pairAndOne.chains.flatten := by
  rintro ⟨heap, hrun, ⟨-, hnext, -⟩, -⟩
  cases hrun
  cases hnext

end Attachment

end Cheshire.Asn
