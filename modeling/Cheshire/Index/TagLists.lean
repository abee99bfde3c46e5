import Cheshire.Fault

/-!
# Elements selected by a path of tags

A parsed document has a table of its tags, with a list of linking nodes for every name.  `comp_tag_list`
follows a path of names: at each one it links the elements of that name that lie within the elements selected
before, by the offsets of their tags.  The lists of nodes are allocated and freed as wholes here, and the
elements themselves are not touched.
-/

namespace Cheshire.TagLists

/-- An element of the document (`SGML_Data`): which one it is, and the offsets of its tags. -/
structure Element where
  number : ℕ
  startTagOffset : ℕ
  endTagOffset : ℕ
deriving DecidableEq, Repr

/-- The lists of linking nodes, each at its address; a list that was freed is not there any more. -/
structure Links where
  lists : List (Option (List Element))

namespace Links

def read (links : Links) (address : ℕ) : Exec (List Element) :=
  match links.lists[address]? with
  | some (some items) => .ok items
  | some none => .error .useAfterFree
  | none => .error .outOfBounds

/-- A new list; without elements the pointer is null. -/
def link (links : Links) (items : List Element) : Option ℕ × Links :=
  if items = [] then (none, links) else (some links.lists.length, ⟨links.lists ++ [some items]⟩)

/-- `free_tag_data_list` -/
def free (links : Links) (address : ℕ) : Exec Links := do
  let _ ← links.read address
  .ok ⟨links.lists.set address none⟩

end Links

/-- The tag table of a document: the address of the list for every name that the document has. -/
structure TagTable where
  find : List Char → Option ℕ

/-- The test of `included_tag_data`. -/
def Element.within (parent item : Element) : Bool :=
  item.startTagOffset ≥ parent.startTagOffset && item.endTagOffset ≤ parent.endTagOffset

/-- The two loops of `included_tag_data`. -/
def included (parents items : List Element) : List Element :=
  parents.flatMap fun parent ↦ items.filter parent.within

/-- `included_tag_data` with parents that are not null. -/
def includedTagData (parentTags dataTags : ℕ) (links : Links) : Exec (Option ℕ × Links) := do
  let parents ← links.read parentTags
  let items ← links.read dataTags
  .ok (links.link (included parents items))

/-- `dup_tag_data`, which turns the list round. -/
def dupTagData (inTags : ℕ) (links : Links) : Exec (Option ℕ × Links) := do
  let items ← links.read inTags
  .ok (links.link items.reverse)

/-- `tag_ptr`: a key without its namespace, in capitals unless the case matters. -/
def tagPtr (casesensitive : Bool) (key : List Char) : List Char :=
  let name := if ':' ∈ key then (key.dropWhile (· ≠ ':')).tail else key
  if casesensitive then name else name.map Char.toUpper

/-- `comp_tag_list` for a path of plain names. -/
def compTagList (table : TagTable) (casesensitive : Bool) :
    List (List Char) → Option ℕ → Links → Exec (Option ℕ × Links)
  | [], _, links => .ok (none, links)
  | key :: subkeys, parentTags, links =>
    match table.find (tagPtr casesensitive key) with
    | none => .ok (none, links)
    | some tagData =>
      match subkeys, parentTags with
      | [], none => dupTagData tagData links
      | [], some parents => includedTagData parents tagData links
      | _ :: _, none => compTagList table casesensitive subkeys (some tagData) links
      | _ :: _, some parents => do
        let tagData2 ← includedTagData parents tagData links
        match tagData2.1 with
        | none => .ok (none, tagData2.2)
        | some parents' => do
          let newTagData ← compTagList table casesensitive subkeys (some parents') tagData2.2
          let links ← newTagData.2.free parents'
          .ok (newTagData.1, links)

/-- A parsed document as its table shows it: the lists of the table are there, with no element twice. -/
structure Document where
  table : TagTable
  links : Links
  elements : List Char → List Element
  listed : ∀ name address, table.find name = some address → links.read address = .ok (elements name)
  absent : ∀ name, table.find name = none → elements name = []
  nodup : ∀ name, (elements name).Nodup

/-- The element lies inside the other one: it is another element, with its tags between the other's. -/
def Element.Inside (parent item : Element) : Prop :=
  item ≠ parent ∧ parent.startTagOffset ≤ item.startTagOffset ∧ item.endTagOffset ≤ parent.endTagOffset

theorem Element.Inside.within {parent item : Element} (h : parent.Inside item) : parent.within item = true := by
  rw [Element.within, Bool.and_eq_true, decide_eq_true_iff, decide_eq_true_iff]
  exact h.2

namespace Document

variable (doc : Document) (casesensitive : Bool)

/-- The elements that a key names. -/
def named (key : List Char) : List Element := doc.elements (tagPtr casesensitive key)

/-- One element for each name of the path, each one nested in the one before. -/
def Chain (nested : Element → Element → Prop) (path : List (List Char)) (chain : List Element) : Prop :=
  List.Forall₂ (fun key item ↦ item ∈ doc.named casesensitive key) path chain ∧ chain.IsChain nested

/-- What a call should leave: a list of the elements inside a chain of elements of the other names, each of
them once, and the lists of the table as they were. -/
def Selects (path : List (List Char)) (result : Exec (Option ℕ × Links)) : Prop :=
  ∃ address links items, result = .ok (address, links) ∧
    (address = none ∧ items = [] ∨ ∃ a, address = some a ∧ links.read a = .ok items) ∧
    (items.Nodup ∧ ∀ item, item ∈ items ↔
      ∃ chain, doc.Chain casesensitive Element.Inside path chain ∧ chain.getLast? = some item) ∧
    ∀ name a, doc.table.find name = some a → links.read a = doc.links.read a

end Document

/-- A call that leaves the lists that were there, and returns these elements in a list of its own. -/
def Yields (links : Links) (run : Exec (Option ℕ × Links)) (items : List Element) : Prop :=
  ∃ address links', run = .ok (address, links') ∧
    (∀ i < links.lists.length, links'.lists[i]? = links.lists[i]?) ∧
    links.lists.length ≤ links'.lists.length ∧
    (address = none ∧ items = [] ∨
      ∃ a, address = some a ∧ links.lists.length ≤ a ∧ links'.read a = .ok items)

variable {links : Links} {address : ℕ} {items : List Element}

theorem Links.read_eq_ok :
    links.read address = .ok items ↔ links.lists[address]? = some (some items) := by
  rw [Links.read]
  split <;> simp_all

theorem Links.lt_of_read (h : links.read address = .ok items) : address < links.lists.length := by
  rw [read_eq_ok] at h
  exact (List.getElem?_eq_some_iff.mp h).1

theorem Links.read_of_old {links' : Links}
    (hold : ∀ i < links.lists.length, links'.lists[i]? = links.lists[i]?)
    (h : links.read address = .ok items) : links'.read address = .ok items := by
  have hlt := lt_of_read h
  rw [read_eq_ok] at h ⊢
  rw [hold address hlt, h]

theorem yields_link (links : Links) (items : List Element) :
    Yields links (.ok (links.link items)) items := by
  rw [Links.link]
  split <;> rename_i hitems
  · exact ⟨none, links, rfl, fun _ _ ↦ rfl, le_rfl, .inl ⟨rfl, hitems⟩⟩
  · refine ⟨_, _, rfl, fun i hi ↦ List.getElem?_append_left hi, by simp, .inr ⟨_, rfl, le_rfl, ?_⟩⟩
    rw [Links.read_eq_ok]
    simp

theorem yields_none (hitems : items = []) : Yields links (.ok (none, links)) items :=
  ⟨none, links, rfl, fun _ _ ↦ rfl, le_rfl, .inl ⟨rfl, hitems⟩⟩

theorem nodup_headed {tails : Element → List (List Element)} (hitems : items.Nodup)
    (htails : ∀ item, (tails item).Nodup) :
    (items.flatMap fun item ↦ (tails item).map (item :: ·)).Nodup := by
  rw [List.nodup_flatMap]
  refine ⟨fun item _ ↦ (htails item).map List.cons_injective, hitems.imp fun {item other} hne ↦ ?_⟩
  rw [Function.onFun, List.disjoint_left]
  intro chain hchain hother
  obtain ⟨rest, -, rfl⟩ := List.mem_map.mp hchain
  obtain ⟨rest', -, heq⟩ := List.mem_map.mp hother
  exact hne (List.cons.inj heq).1.symm

namespace Document

variable (doc : Document) (casesensitive : Bool)

/-- The lists of the table are there. -/
def KeptIn (links : Links) : Prop :=
  ∀ name address, doc.table.find name = some address → links.read address = .ok (doc.elements name)

/-- What is selected from a list of parents on. -/
def selectFrom : List (List Char) → List Element → List Element
  | [], parents => parents
  | key :: keys, parents => selectFrom keys (included parents (doc.named casesensitive key))

theorem selectFrom_nil (keys : List (List Char)) : doc.selectFrom casesensitive keys [] = [] := by
  induction keys with
  | nil => rfl
  | cons key keys ih => exact ih

theorem included_nil (parents : List Element) : included parents [] = [] := by
  simp [included]

theorem compTagList_parents (key : List Char) (keys : List (List Char)) (links : Links)
    (hkept : doc.KeptIn links) {a : ℕ} {parents : List Element} (ha : links.read a = .ok parents) :
    Yields links (compTagList doc.table casesensitive (key :: keys) (some a) links)
      (doc.selectFrom casesensitive (key :: keys) parents) := by
  induction keys generalizing key links a parents with
  | nil =>
    rw [compTagList, selectFrom, selectFrom, named]
    cases hfind : doc.table.find (tagPtr casesensitive key) with
    | none => exact yields_none (by rw [doc.absent _ hfind, included_nil])
    | some tagData =>
      simp only [includedTagData, ha, hkept _ _ hfind]
      exact yields_link links _
  | cons next keys ih =>
    rw [compTagList, selectFrom, named]
    cases hfind : doc.table.find (tagPtr casesensitive key) with
    | none => exact yields_none (by rw [doc.absent _ hfind, included_nil, selectFrom_nil])
    | some tagData =>
      simp only [includedTagData, ha, hkept _ _ hfind]
      change Yields links ((.ok (links.link _) : Exec _) >>= _) _
      obtain ⟨address, links', hrun, hold, hlength, hitems⟩ :=
        yields_link links (included parents (doc.elements (tagPtr casesensitive key)))
      rw [hrun]
      rcases hitems with ⟨rfl, hnone⟩ | ⟨a', rfl, ha', hread⟩
      · rw [hnone, selectFrom_nil]
        exact ⟨none, links', rfl, hold, hlength, .inl ⟨rfl, rfl⟩⟩
      · have hkept' : doc.KeptIn links' := fun name b hb ↦ Links.read_of_old hold (hkept name b hb)
        obtain ⟨address, links'', hrun', hold', hlength', hitems'⟩ := ih next links' hkept' hread
        have hlt := Links.lt_of_read hread
        have hread' : links''.read a' = .ok (included parents (doc.elements (tagPtr casesensitive key))) :=
          Links.read_of_old hold' hread
        change Yields links (compTagList doc.table casesensitive (next :: keys) (some a') links' >>= _) _
        rw [hrun']
        have hfree : links''.free a' = .ok ⟨links''.lists.set a' none⟩ := by
          rw [Links.free, hread']
          rfl
        change Yields links (links''.free a' >>= _) _
        rw [hfree]
        refine ⟨address, ⟨links''.lists.set a' none⟩, rfl, fun i hi ↦ ?_, ?_, ?_⟩
        · rw [List.getElem?_set_ne (by omega), hold' i (by omega), hold i hi]
        · rw [List.length_set]
          omega
        · rcases hitems' with hnone | ⟨b, hb, hle, hlist⟩
          · exact .inl hnone
          · refine .inr ⟨b, hb, by omega, ?_⟩
            rw [Links.read_eq_ok] at hlist ⊢
            rw [List.getElem?_set_ne (by omega), hlist]

/-- The chains below an element by the test of the code. -/
def chainsFrom (parent : Element) : List (List Char) → List (List Element)
  | [] => [[]]
  | key :: keys =>
    ((doc.named casesensitive key).filter parent.within).flatMap fun item ↦
      (chainsFrom item keys).map (item :: ·)

theorem selectFrom_eq (keys : List (List Char)) (parents : List Element) :
    doc.selectFrom casesensitive keys parents =
      parents.flatMap fun parent ↦ (doc.chainsFrom casesensitive parent keys).map (·.getLastD parent) := by
  induction keys generalizing parents with
  | nil => simp [selectFrom, chainsFrom]
  | cons key keys ih =>
    rw [selectFrom, ih, included, List.flatMap_assoc]
    simp only [chainsFrom, List.map_flatMap, List.map_map, Function.comp_def,
      List.getLastD_cons]

theorem mem_chainsFrom {parent : Element} {keys : List (List Char)} {chain : List Element} :
    chain ∈ doc.chainsFrom casesensitive parent keys ↔
      List.Forall₂ (fun key item ↦ item ∈ doc.named casesensitive key) keys chain ∧
        (parent :: chain).IsChain fun outer inner ↦ outer.within inner = true := by
  induction keys generalizing parent chain with
  | nil =>
    rw [chainsFrom, List.mem_singleton, List.forall₂_nil_left_iff]
    exact ⟨fun h ↦ ⟨h, h ▸ List.isChain_singleton _⟩, fun h ↦ h.1⟩
  | cons key keys ih =>
    rw [chainsFrom, List.mem_flatMap]
    constructor
    · rintro ⟨item, hitem, hmem⟩
      obtain ⟨rest, hrest, rfl⟩ := List.mem_map.mp hmem
      obtain ⟨hnamed, hwithin⟩ := List.mem_filter.mp hitem
      obtain ⟨hnames, hchain⟩ := ih.mp hrest
      exact ⟨.cons hnamed hnames, List.isChain_cons_cons.mpr ⟨hwithin, hchain⟩⟩
    · rintro ⟨hnames, hchain⟩
      obtain ⟨item, rest, hnamed, hrest, rfl⟩ := List.forall₂_cons_left_iff.mp hnames
      obtain ⟨hwithin, hchain⟩ := List.isChain_cons_cons.mp hchain
      exact ⟨item, List.mem_filter.mpr ⟨hnamed, hwithin⟩, List.mem_map_of_mem (ih.mpr ⟨hrest, hchain⟩)⟩

theorem nodup_chainsFrom (parent : Element) (keys : List (List Char)) :
    (doc.chainsFrom casesensitive parent keys).Nodup := by
  induction keys generalizing parent with
  | nil => exact List.nodup_singleton _
  | cons key keys ih => exact nodup_headed ((doc.nodup _).filter _) ih

/-- All chains of a path by the test of the code. -/
def chains (key : List Char) (keys : List (List Char)) : List (List Element) :=
  (doc.named casesensitive key).flatMap fun item ↦ (doc.chainsFrom casesensitive item keys).map (item :: ·)

theorem mem_chains {key : List Char} {keys : List (List Char)} {chain : List Element} :
    chain ∈ doc.chains casesensitive key keys ↔
      doc.Chain casesensitive (·.within ·) (key :: keys) chain := by
  rw [chains, List.mem_flatMap, Chain]
  constructor
  · rintro ⟨item, hitem, hmem⟩
    obtain ⟨rest, hrest, rfl⟩ := List.mem_map.mp hmem
    obtain ⟨hnames, hchain⟩ := (doc.mem_chainsFrom casesensitive).mp hrest
    exact ⟨.cons hitem hnames, hchain⟩
  · rintro ⟨hnames, hchain⟩
    obtain ⟨item, rest, hitem, hrest, rfl⟩ := List.forall₂_cons_left_iff.mp hnames
    exact ⟨item, hitem, List.mem_map_of_mem ((doc.mem_chainsFrom casesensitive).mpr ⟨hrest, hchain⟩)⟩

theorem nodup_chains (key : List Char) (keys : List (List Char)) :
    (doc.chains casesensitive key keys).Nodup :=
  nodup_headed (doc.nodup _) fun item ↦ doc.nodup_chainsFrom casesensitive item keys

theorem map_some_selectFrom (key : List Char) (keys : List (List Char)) :
    (doc.selectFrom casesensitive keys (doc.named casesensitive key)).map some =
      (doc.chains casesensitive key keys).map List.getLast? := by
  rw [selectFrom_eq, chains]
  simp only [List.map_flatMap, List.map_map, Function.comp_def, List.getLast?_cons, List.getLastD_eq_getLast?]

theorem compTagList_path (key : List Char) (keys : List (List Char)) :
    ∃ items, items.Perm (doc.selectFrom casesensitive keys (doc.named casesensitive key)) ∧
      Yields doc.links (compTagList doc.table casesensitive (key :: keys) none doc.links) items := by
  cases hfind : doc.table.find (tagPtr casesensitive key) with
  | none =>
    refine ⟨[], ?_, ?_⟩
    · rw [named, doc.absent _ hfind, selectFrom_nil]
    · rw [compTagList, hfind]
      exact yields_none rfl
  | some tagData =>
    have hread := doc.listed _ _ hfind
    cases keys with
    | nil =>
      refine ⟨(doc.named casesensitive key).reverse, List.reverse_perm _, ?_⟩
      rw [compTagList, hfind]
      simp only [dupTagData, hread]
      exact yields_link doc.links _
    | cons next keys =>
      refine ⟨_, List.Perm.refl _, ?_⟩
      rw [compTagList, hfind]
      exact doc.compTagList_parents casesensitive next keys doc.links doc.listed hread

/-- The selection is right exactly when the test of the code leaves only chains of elements that lie inside
one another, and no two of them with the same last element. -/
theorem compTagList_selects_iff (key : List Char) (keys : List (List Char)) :
    doc.Selects casesensitive (key :: keys)
        (compTagList doc.table casesensitive (key :: keys) none doc.links) ↔
      ∀ chain, doc.Chain casesensitive (·.within ·) (key :: keys) chain →
        chain.IsChain Element.Inside ∧
          ∀ other, doc.Chain casesensitive (·.within ·) (key :: keys) other →
            other.getLast? = chain.getLast? → other = chain := by
  obtain ⟨items, hperm, address, links, hrun, hold, -, hitems⟩ := doc.compTagList_path casesensitive key keys
  have hlast := hperm.map some
  rw [map_some_selectFrom] at hlast
  have hmem (item : Element) : item ∈ items ↔ ∃ chain, doc.Chain casesensitive
      (·.within ·) (key :: keys) chain ∧ chain.getLast? = some item := by
    rw [← List.mem_map_of_injective (Option.some_injective _), hlast.mem_iff, List.mem_map]
    simp only [mem_chains]
  have hnodup : items.Nodup ↔ ∀ chain ∈ doc.chains casesensitive key keys,
      ∀ other ∈ doc.chains casesensitive key keys, chain.getLast? = other.getLast? → chain = other := by
    rw [← List.nodup_map_iff (Option.some_injective _), hlast.nodup_iff,
      List.nodup_map_iff_inj_on (doc.nodup_chains casesensitive key keys)]
  constructor
  · rintro ⟨address', links', items', hrun', hitems', ⟨hnodup', hinside⟩, -⟩ chain hchain
    obtain ⟨rfl, rfl⟩ : address = address' ∧ links = links' := by
      rw [hrun] at hrun'
      cases hrun'
      exact ⟨rfl, rfl⟩
    obtain rfl : items = items' := by
      rcases hitems with ⟨rfl, rfl⟩ | ⟨a, rfl, -, hread⟩
      · rcases hitems' with ⟨-, rfl⟩ | ⟨a, ha, -⟩
        · rfl
        · cases ha
      · rcases hitems' with ⟨ha, -⟩ | ⟨a', ha, hread'⟩
        · cases ha
        · cases ha
          exact Except.ok.inj (hread.symm.trans hread')
    have honce := hnodup.mp hnodup'
    obtain ⟨item, hitem⟩ : ∃ item, chain.getLast? = some item := by
      obtain ⟨item, rest, -, -, rfl⟩ := List.forall₂_cons_left_iff.mp hchain.1
      exact ⟨_, List.getLast?_cons⟩
    obtain ⟨inner, hinner, hlastInner⟩ := (hinside item).mp ((hmem item).mpr ⟨chain, hchain, hitem⟩)
    -- the chain of elements inside one another is one of the chains of the code
    have hcode : doc.Chain casesensitive (·.within ·) (key :: keys) inner :=
      ⟨hinner.1, hinner.2.imp fun _ _ h ↦ h.within⟩
    have hsame : chain = inner := honce chain ((doc.mem_chains casesensitive).mpr hchain) inner
      ((doc.mem_chains casesensitive).mpr hcode) (hitem.trans hlastInner.symm)
    refine ⟨hsame ▸ hinner.2, fun other hother hlast ↦ ?_⟩
    exact honce other ((doc.mem_chains casesensitive).mpr hother) chain
      ((doc.mem_chains casesensitive).mpr hchain) hlast
  · intro hchains
    refine ⟨address, links, items, hrun, ?_,
      ⟨hnodup.mpr fun chain hchain other hother heq ↦ ?_, fun item ↦ ?_⟩, ?_⟩
    · rcases hitems with hnone | ⟨a, ha, -, hread⟩
      · exact .inl hnone
      · exact .inr ⟨a, ha, hread⟩
    · exact (hchains other ((doc.mem_chains casesensitive).mp hother)).2 chain
        ((doc.mem_chains casesensitive).mp hchain) heq
    · rw [hmem]
      constructor
      · rintro ⟨chain, hchain, hlast⟩
        exact ⟨chain, ⟨hchain.1, (hchains chain hchain).1⟩, hlast⟩
      · rintro ⟨chain, hchain, hlast⟩
        exact ⟨chain, ⟨hchain.1, hchain.2.imp fun _ _ h ↦ h.within⟩, hlast⟩
    · intro name a hfind
      have hread := doc.listed name a hfind
      rw [hread]
      exact Links.read_of_old hold hread

/-- Two elements `A`, one inside the other, and an element `B` inside both of them. -/
def nestedTwice : Document where
  table := ⟨fun name ↦ if name = ['A'] then some 0 else if name = ['B'] then some 1 else none⟩
  links := ⟨[some [⟨0, 0, 60⟩, ⟨1, 10, 50⟩], some [⟨2, 20, 30⟩]]⟩
  elements name :=
    if name = ['A'] then [⟨0, 0, 60⟩, ⟨1, 10, 50⟩] else if name = ['B'] then [⟨2, 20, 30⟩] else []
  listed name address h := by
    dsimp only at h
    split_ifs at h ⊢ <;> cases h <;> rfl
  absent name h := by
    dsimp only at h
    split_ifs at h ⊢
    rfl
  nodup name := by
    split_ifs <;> decide

/-- The element inside both parents is linked twice. -/
theorem not_selects_nestedTwice : ¬ nestedTwice.Selects true [['A'], ['B']]
    (compTagList nestedTwice.table true [['A'], ['B']] none nestedTwice.links) := by
  rintro ⟨address, links, items, hrun, hitems, ⟨hnodup, -⟩, -⟩
  cases hrun
  rcases hitems with ⟨ha, -⟩ | ⟨a, ha, hread⟩
  · cases ha
  · cases ha
    cases hread
    revert hnodup
    decide

end Document

end Cheshire.TagLists
