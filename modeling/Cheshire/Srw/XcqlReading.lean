import Cheshire.Srw.XcqlDocument

/-!
# Reading the document of a query

The nodes that a parser of XML makes of the document are read as the query, in lower case where the
reader lowers, exactly if no text is empty or has ends of lines that the parser changes, no relation
has modifiers, a boolean has no modifiers or four of which one is not empty, and prefixes that agree
in lower case have one identifier.
-/

namespace Cheshire.Srw

open Lib.Xml XcqlParser

variable (lowerCase : LowerCase)

/-- The prefixes read are those of the node, their names in lower case. -/
def SamePrefixes (prefixes read : Prefixes) : Prop :=
  (∀ name identifier, prefixes.lookup name = some identifier →
      read.lookup (lowerCase.lower name) = some identifier) ∧
    ∀ name identifier, read.lookup name = some identifier →
      ∃ name', prefixes.lookup name' = some identifier ∧ lowerCase.lower name' = name

/-- The object read is the query, in lower case where the reader lowers. -/
def SameQuery : CqlQuery → QueryObject → Prop
  | .searchClause sc, .searchClause prefixes index relation term =>
    SamePrefixes lowerCase sc.prefixes prefixes ∧ index = lowerCase.lower sc.index ∧
      relation = some ⟨lowerCase.lower sc.relation.value,
        sc.relation.modifiers.map lowerCase.lower⟩ ∧ term = sc.term
  | .triple prefixes leftOperand boolean rightOperand, .triple prefixes' left boolean' right =>
    SamePrefixes lowerCase prefixes prefixes' ∧
      (∃ object, left = some object ∧ SameQuery leftOperand object) ∧
      boolean' = some ⟨lowerCase.lower boolean.value, boolean.modifiers.map lowerCase.lower⟩ ∧
      ∃ object, right = some object ∧ SameQuery rightOperand object
  | _, _ => False

def ReadablePrefixes (P : PyStr → Prop) (prefixes : Prefixes) : Prop :=
  (∀ name identifier, prefixes.lookup name = some identifier → P name ∧ P identifier) ∧
    ∀ name identifier name' identifier', prefixes.lookup name = some identifier →
      prefixes.lookup name' = some identifier' → lowerCase.lower name = lowerCase.lower name' →
        identifier = identifier'

def ReadableBoolean (P : PyStr → Prop) (boolean : Boolean) : Prop :=
  P boolean.value ∧ (boolean.modifiers = [] ∨ boolean.modifiers.length = 4 ∧
    (∃ m ∈ boolean.modifiers, m ≠ []) ∧ ∀ m ∈ boolean.modifiers, m ≠ [] → P m)

/-- All texts of the query are good, its relations have no modifiers, its booleans none or four of
which one is not empty, and its prefixes do not disagree in lower case. -/
def ReadableQuery (P : PyStr → Prop) : CqlQuery → Prop
  | .searchClause sc => ReadablePrefixes lowerCase P sc.prefixes ∧ P sc.index ∧
      P sc.relation.value ∧ sc.relation.modifiers = [] ∧ P sc.term
  | .triple prefixes leftOperand boolean rightOperand =>
    ReadablePrefixes lowerCase P prefixes ∧ ReadableBoolean P boolean ∧
      ReadableQuery P leftOperand ∧ ReadableQuery P rightOperand

/-- A text that is not empty and has no end of line to be normalised. -/
def Kept (s : PyStr) : Prop := s ≠ [] ∧ '\r' ∉ s

variable {lowerCase}

theorem lower_lineEnds_eq_iff (s : PyStr) :
    lowerCase.lower (lineEnds s) = lowerCase.lower s ↔ '\r' ∉ s := by
  constructor
  · intro hsame hcr
    have hmem : '\r' ∈ lowerCase.lower (lineEnds s) := by
      rw [hsame]
      exact List.mem_map.mpr ⟨'\r', hcr, (lowerCase.eq_cr_iff '\r').mpr rfl⟩
    obtain ⟨c, hc, hlower⟩ := List.mem_map.mp hmem
    rw [lowerCase.eq_cr_iff] at hlower
    exact cr_notMem_lineEnds s (hlower ▸ hc)
  · intro hcr
    rw [(lineEnds_eq_self_iff s).mpr hcr]

theorem firstChildData_texts (s data : PyStr) :
    firstChildData (texts s) = .ok data ↔ s ≠ [] ∧ data = s := by
  unfold texts
  split_ifs with hs <;> simp [firstChildData, hs, eq_comm]

theorem firstChild_texts (s data : PyStr) :
    firstChild (texts s) = .ok data ↔ s ≠ [] ∧ data = s := by
  unfold texts
  split_ifs with hs <;> simp [firstChild, hs, eq_comm]

@[simp]
theorem lineEndsAll_eq_map (nodes : List Node) : lineEndsAll nodes = nodes.map Node.lineEnds := by
  induction nodes with
  | nil => rfl
  | cons node nodes hnodes => rw [lineEndsAll, hnodes, List.map_cons]

theorem cr_notMem_space (depth : ℕ) : '\r' ∉ space depth := by
  simp [space]

theorem lineEnds_indent (depth : ℕ) : (indent depth).lineEnds = indent depth := by
  have hcr : '\r' ∉ '\n' :: space depth := by simpa using cr_notMem_space depth
  rw [indent, Node.lineEnds, (lineEnds_eq_self_iff _).mpr hcr]

@[simp]
theorem lineEnds_block (depth : ℕ) (localName : String) (nodes : List Node) :
    (block depth localName nodes).lineEnds = block depth localName (nodes.map Node.lineEnds) := by
  simp [block, indented, Node.lineEnds, lineEnds_indent, List.map_flatMap, List.flatMap_map]

@[simp]
theorem lineEnds_leaf (localName : String) (s : PyStr) :
    (leaf localName s).lineEnds = leaf localName (lineEnds s) := by
  unfold leaf texts
  simp only [lineEnds_eq_nil_iff]
  split_ifs <;> simp [Node.lineEnds]

variable {σ : Type}

variable (body : σ → String → List Node → Except PyError σ)

theorem forElements_indented (s : σ) (depth : ℕ)
    (nodes : List Node) : forElements body s (indented depth nodes) = forElements body s nodes := by
  induction nodes generalizing s with
  | nil => rfl
  | cons node nodes hnodes =>
    have hcons : indented depth (node :: nodes) = indent (depth + 1) :: node :: indented depth nodes :=
      rfl
    rw [hcons]
    cases node with
    | text data => exact hnodes s
    | element localName childNodes =>
      rw [indent, forElements, forElements, forElements]
      exact congrArg _ (funext hnodes)

theorem forElements_leaf (s : σ) (localName : String) (text : PyStr) (rest : List Node) :
    forElements body s (leaf localName text :: rest) =
      body s localName (texts text) >>= fun s' ↦ forElements body s' rest :=
  rfl

theorem forElements_block (s : σ) (depth : ℕ) (localName : String) (nodes rest : List Node) :
    forElements body s (block depth localName nodes :: rest) =
      body s localName (indented depth nodes) >>= fun s' ↦ forElements body s' rest :=
  rfl

theorem forElements_map_eq_ok_iff {α : Type} {body : σ → String → List Node → Except PyError σ}
    {localName : String} {nodes : α → List Node} {Good : α → Prop} {next : σ → α → σ} {l : List α}
    (hbody : ∀ a ∈ l, ∀ s s', body s localName (nodes a) = .ok s' ↔ Good a ∧ s' = next s a)
    (s s' : σ) : forElements body s (l.map fun a ↦ .element localName (nodes a)) = .ok s' ↔
      (∀ a ∈ l, Good a) ∧ s' = l.foldl next s := by
  induction l generalizing s with
  | nil => simp [forElements, eq_comm]
  | cons a l hl =>
    rw [List.forall_mem_cons] at hbody
    rw [List.map_cons, forElements, bind_eq_ok_iff, List.forall_mem_cons, List.foldl_cons]
    constructor
    · rintro ⟨second, hfirst, hrest⟩
      obtain ⟨hgood, hsecond⟩ := (hbody.1 s second).mp hfirst
      rw [hl hbody.2, hsecond] at hrest
      exact ⟨⟨hgood, hrest.1⟩, hrest.2⟩
    · rintro ⟨⟨hgood, hall⟩, hlast⟩
      exact ⟨next s a, (hbody.1 s _).mpr ⟨hgood, rfl⟩, (hl hbody.2 _).mpr ⟨hall, hlast⟩⟩

theorem relationDocument_lineEnds (depth : ℕ) (r : Relation) :
    (relationDocument depth r).lineEnds = block depth "relation" (leaf "value" (lineEnds r.value) ::
      if r.modifiers = [] then []
      else [block (depth + 1) "modifiers" (r.modifiers.map fun m ↦
        .element "modifier" [leaf "value" (lineEnds m)])]) := by
  unfold relationDocument
  split_ifs <;> simp [Node.lineEnds, Function.comp_def]

theorem relationModifiers_error (depth : ℕ) (m : PyStr) (modifiers : List PyStr) :
    relationModifiers lowerCase (indented depth ((m :: modifiers).map fun m ↦
      .element "modifier" [leaf "value" (lineEnds m)])) = .error .attributeError := by
  rw [relationModifiers, forElements_indented]
  rfl

theorem relation_eq_ok_iff (depth : ℕ) (r rel : Relation) :
    relation lowerCase (indented depth (leaf "value" (lineEnds r.value) ::
      if r.modifiers = [] then []
      else [block (depth + 1) "modifiers" (r.modifiers.map fun m ↦
        .element "modifier" [leaf "value" (lineEnds m)])])) = .ok rel ↔
    r.value ≠ [] ∧ r.modifiers = [] ∧ rel = ⟨lowerCase.lower (lineEnds r.value), []⟩ := by
  rw [relation, forElements_indented, leaf, forElements]
  simp only [if_true, bind_eq_ok_iff, firstChild_texts, ne_eq, lineEnds_eq_nil_iff]
  cases hmodifiers : r.modifiers with
  | nil => simp [forElements, eq_comm]
  | cons m modifiers =>
    refine iff_of_false ?_ (by simp)
    rintro ⟨data, _, hrest⟩
    rw [if_neg (List.cons_ne_nil _ _), block, forElements, if_neg (by decide), if_pos rfl,
      relationModifiers_error] at hrest
    cases hrest

theorem lookup_foldl_insert (entries : List (PyStr × PyStr)) (dict : AList fun _ : PyStr ↦ PyStr)
    (key : PyStr) :
    (entries.foldl (fun dict entry ↦ dict.insert entry.1 entry.2) dict).lookup key =
      ((entries.reverse.find? (·.1 = key)).map Prod.snd).or (dict.lookup key) := by
  induction entries generalizing dict with
  | nil => simp
  | cons entry entries hentries =>
    rw [List.foldl_cons, hentries, List.reverse_cons, List.find?_append]
    by_cases hkey : entry.1 = key
    · subst hkey
      cases entries.reverse.find? (·.1 = entry.1) <;> simp
    · rw [AList.lookup_insert_ne (Ne.symm hkey)]
      cases entries.reverse.find? (·.1 = key) <;> simp [hkey]

theorem mem_of_lookup_foldl_insert {entries : List (PyStr × PyStr)} {key value : PyStr}
    (hlookup : (entries.foldl (fun dict entry ↦ dict.insert entry.1 entry.2)
      (∅ : AList fun _ : PyStr ↦ PyStr)).lookup key = some value) : (key, value) ∈ entries := by
  rw [lookup_foldl_insert, AList.lookup_empty, Option.or_none, Option.map_eq_some_iff] at hlookup
  obtain ⟨entry, hfind, hvalue⟩ := hlookup
  have hkey : entry.1 = key := by simpa using List.find?_some hfind
  have hmem := List.mem_of_find?_eq_some hfind
  rw [← hkey, ← hvalue]
  exact List.mem_reverse.mp hmem

theorem lookup_foldl_insert_of_mem {entries : List (PyStr × PyStr)} {key value : PyStr}
    (hmem : (key, value) ∈ entries) : ∃ value', (key, value') ∈ entries ∧
      (entries.foldl (fun dict entry ↦ dict.insert entry.1 entry.2)
        (∅ : AList fun _ : PyStr ↦ PyStr)).lookup key = some value' := by
  cases hlookup : (entries.foldl (fun dict entry ↦ dict.insert entry.1 entry.2)
      (∅ : AList fun _ : PyStr ↦ PyStr)).lookup key with
  | some value' => exact ⟨value', mem_of_lookup_foldl_insert hlookup, rfl⟩
  | none =>
    rw [lookup_foldl_insert, AList.lookup_empty, Option.or_none, Option.map_eq_none_iff,
      List.find?_eq_none] at hlookup
    exact absurd (decide_eq_true rfl) (hlookup _ (List.mem_reverse.mpr hmem))

theorem prefixesDocument_lineEnds (depth : ℕ) (dict : Prefixes) :
    (prefixesDocument depth dict).map Node.lineEnds = if dict.entries = [] then []
      else [block (depth + 1) "prefixes" (dict.entries.map fun p ↦
        block (depth + 2) "prefix" [leaf "name" (lineEnds p.1), leaf "identifier" (lineEnds p.2)])] := by
  unfold prefixesDocument
  split_ifs <;> simp [Function.comp_def]

theorem prefixEntry_eq_ok_iff (depth : ℕ) (name identifier : PyStr) (entry : PyStr × PyStr) :
    prefixEntry lowerCase (indented depth [leaf "name" name, leaf "identifier" identifier]) =
      .ok entry ↔ (name ≠ [] ∧ identifier ≠ []) ∧ entry = (lowerCase.lower name, identifier) := by
  rw [prefixEntry, forElements_indented]
  simp only [leaf, forElements, reduceIte, String.reduceEq, bind_eq_ok_iff, firstChildData_texts]
  constructor
  · rintro ⟨first, ⟨_, ⟨hname, rfl⟩, hfirst⟩, second, ⟨_, ⟨hidentifier, rfl⟩, hsecond⟩, hentry⟩
    cases hfirst
    cases hsecond
    cases hentry
    exact ⟨⟨hname, hidentifier⟩, rfl⟩
  · rintro ⟨⟨hname, hidentifier⟩, hentry⟩
    exact ⟨_, ⟨_, ⟨hname, rfl⟩, rfl⟩, _, ⟨_, ⟨hidentifier, rfl⟩, rfl⟩, hentry ▸ rfl⟩

def readEntries (lowerCase : LowerCase) (dict : Prefixes) : List (PyStr × PyStr) :=
  dict.entries.map fun p ↦ (lowerCase.lower (lineEnds p.1), lineEnds p.2)

/-- The dictionary as it is read: a later entry replaces an earlier one. -/
def readPrefixes (lowerCase : LowerCase) (dict : Prefixes) : Prefixes :=
  (readEntries lowerCase dict).foldl (fun dict entry ↦ dict.insert entry.1 entry.2) ∅

variable (dict : Prefixes)

theorem mem_readEntries (key value : PyStr) :
    (key, value) ∈ readEntries lowerCase dict ↔ ∃ name identifier,
      dict.lookup name = some identifier ∧ lowerCase.lower (lineEnds name) = key ∧
        lineEnds identifier = value := by
  have hentry : ∀ name identifier, dict.lookup name = some identifier ↔
      Sigma.mk name identifier ∈ dict.entries := fun name identifier ↦ AList.mem_lookup_iff
  simp only [readEntries, List.mem_map, Prod.mk.injEq, hentry]
  constructor
  · rintro ⟨p, hp, hkey, hvalue⟩
    exact ⟨p.1, p.2, hp, hkey, hvalue⟩
  · rintro ⟨name, identifier, hp, hkey, hvalue⟩
    exact ⟨⟨name, identifier⟩, hp, hkey, hvalue⟩

theorem prefixes_eq_ok_iff (depth : ℕ) (dict read : Prefixes) :
    prefixes lowerCase (indented depth (dict.entries.map fun p ↦
      block (depth + 1) "prefix" [leaf "name" (lineEnds p.1), leaf "identifier" (lineEnds p.2)])) =
        .ok read ↔
    (∀ p ∈ dict.entries, p.1 ≠ [] ∧ p.2 ≠ []) ∧
      read = readPrefixes lowerCase dict := by
  rw [prefixes, forElements_indented, readPrefixes, readEntries, List.foldl_map]
  refine forElements_map_eq_ok_iff (fun p _ dict dict' ↦ ?_) ∅ read
  simp only [bind_eq_ok_iff, prefixEntry_eq_ok_iff, ne_eq, lineEnds_eq_nil_iff]
  constructor
  · rintro ⟨entry, ⟨hgiven, hentry⟩, hinsert⟩
    rw [hentry] at hinsert
    exact ⟨hgiven, (Except.ok.inj hinsert).symm⟩
  · rintro ⟨hgiven, hinsert⟩
    exact ⟨_, ⟨hgiven, rfl⟩, congrArg Except.ok hinsert.symm⟩

theorem samePrefixes_iff : ((∀ p ∈ dict.entries, p.1 ≠ [] ∧ p.2 ≠ []) ∧
      SamePrefixes lowerCase dict (readPrefixes lowerCase dict)) ↔
    ReadablePrefixes lowerCase Kept dict := by
  have hentry : ∀ name identifier, dict.lookup name = some identifier ↔
      Sigma.mk name identifier ∈ dict.entries := fun name identifier ↦ AList.mem_lookup_iff
  constructor
  · rintro ⟨hgiven, hwritten, _⟩
    constructor
    · intro name identifier hlookup
      obtain ⟨hname, hidentifier⟩ := hgiven _ ((hentry name identifier).mp hlookup)
      have hmem := mem_of_lookup_foldl_insert (hwritten name identifier hlookup)
      obtain ⟨name', identifier', _, hlower, hvalue⟩ := (mem_readEntries dict _ _).mp hmem
      refine ⟨⟨hname, fun hcr ↦ ?_⟩, hidentifier, ?_⟩
      · have hmem : '\r' ∈ lowerCase.lower name :=
          List.mem_map.mpr ⟨'\r', hcr, (lowerCase.eq_cr_iff '\r').mpr rfl⟩
        rw [← hlower] at hmem
        obtain ⟨c, hc, hlowerChar⟩ := List.mem_map.mp hmem
        rw [lowerCase.eq_cr_iff] at hlowerChar
        exact cr_notMem_lineEnds name' (hlowerChar ▸ hc)
      · rw [← hvalue]
        exact cr_notMem_lineEnds identifier'
    · intro name identifier name' identifier' hlookup hlookup' hlower
      have hread := hwritten name identifier hlookup
      rw [hlower, hwritten name' identifier' hlookup', Option.some.injEq] at hread
      exact hread.symm
  · rintro ⟨hkept, hagree⟩
    have hsame : ∀ key value, (key, value) ∈ readEntries lowerCase dict ↔
        ∃ name, dict.lookup name = some value ∧ lowerCase.lower name = key := by
      intro key value
      rw [mem_readEntries]
      constructor
      · rintro ⟨name, identifier, hlookup, hlower, hvalue⟩
        obtain ⟨hname, hidentifier⟩ := hkept name identifier hlookup
        rw [(lineEnds_eq_self_iff _).mpr hname.2] at hlower
        rw [(lineEnds_eq_self_iff _).mpr hidentifier.2] at hvalue
        exact ⟨name, hvalue ▸ hlookup, hlower⟩
      · rintro ⟨name, hlookup, hlower⟩
        obtain ⟨hname, hidentifier⟩ := hkept name value hlookup
        refine ⟨name, value, hlookup, ?_, (lineEnds_eq_self_iff _).mpr hidentifier.2⟩
        rw [(lineEnds_eq_self_iff _).mpr hname.2, hlower]
    refine ⟨fun p hp ↦ ?_, ?_, ?_⟩
    · obtain ⟨hname, hidentifier⟩ := hkept p.1 p.2 ((hentry p.1 p.2).mpr hp)
      exact ⟨hname.1, hidentifier.1⟩
    · intro name identifier hlookup
      obtain ⟨value, hmem, hread⟩ :=
        lookup_foldl_insert_of_mem ((hsame _ _).mpr ⟨name, hlookup, rfl⟩)
      obtain ⟨name', hlookup', hlower⟩ := (hsame _ _).mp hmem
      rw [readPrefixes, hread, hagree name' value name identifier hlookup' hlookup hlower]
    · intro name identifier hread
      exact (hsame _ _).mp (mem_of_lookup_foldl_insert hread)

/-- A modifier as the parser of XML gives it. -/
def readModifier (m : PyStr × ℕ) : Node :=
  .element "modifier" [leaf "type" (booleanModifierTypes[m.2]?.getD []), leaf "value" (lineEnds m.1)]

theorem cr_notMem_type (i : ℕ) : '\r' ∉ booleanModifierTypes[i]?.getD [] := by
  have hall : ∀ type ∈ booleanModifierTypes, '\r' ∉ type := by decide
  cases htype : booleanModifierTypes[i]? with
  | none => exact List.not_mem_nil
  | some type => exact hall type (List.mem_of_getElem? htype)

theorem modifierDocument_lineEnds (m : PyStr × ℕ) :
    (modifierDocument m).lineEnds = readModifier m := by
  simp [modifierDocument, readModifier, Node.lineEnds, (lineEnds_eq_self_iff _).mpr (cr_notMem_type _)]

theorem booleanDocument_lineEnds (depth : ℕ) (b : Boolean) :
    (booleanDocument depth b).lineEnds = block depth "boolean" (leaf "value" (lineEnds b.value) ::
      if givenModifiers b = [] then []
      else [block (depth + 1) "modifiers" ((givenModifiers b).map readModifier)]) := by
  unfold booleanDocument
  split_ifs <;> simp [Function.comp_def, modifierDocument_lineEnds]

theorem modifier_eq_ok_iff (type value : PyStr) (entry : PyStr × PyStr) :
    modifier lowerCase [leaf "type" type, leaf "value" value] = .ok entry ↔
      (type ≠ [] ∧ value ≠ []) ∧ entry = (type, lowerCase.lower value) := by
  simp only [modifier, leaf, forElements, reduceIte, String.reduceEq, bind_eq_ok_iff,
    firstChildData_texts]
  constructor
  · rintro ⟨first, ⟨_, ⟨htype, rfl⟩, hfirst⟩, second, ⟨_, ⟨hvalue, rfl⟩, hsecond⟩, hentry⟩
    cases hfirst
    cases hsecond
    cases hentry
    exact ⟨⟨htype, hvalue⟩, rfl⟩
  · rintro ⟨⟨htype, hvalue⟩, hentry⟩
    exact ⟨_, ⟨_, ⟨htype, rfl⟩, rfl⟩, _, ⟨_, ⟨hvalue, rfl⟩, rfl⟩, hentry ▸ rfl⟩

theorem mem_givenModifiers (b : Boolean) (m : PyStr) (i : ℕ) :
    (m, i) ∈ givenModifiers b ↔ m ≠ [] ∧ 1 ≤ i ∧ b.modifiers[i - 1]? = some m := by
  rw [givenModifiers, List.mem_filter, List.mk_mem_zipIdx_iff_le_and_getElem?_sub, and_comm]
  simp

theorem givenModifiers_eq_nil_iff (b : Boolean) :
    givenModifiers b = [] ↔ ∀ m ∈ b.modifiers, m = [] := by
  rw [List.eq_nil_iff_forall_not_mem]
  constructor
  · intro hnone m hm
    obtain ⟨i, hi⟩ := List.mem_iff_getElem?.mp hm
    by_contra hgiven
    exact hnone (m, i + 1) ((mem_givenModifiers b m _).mpr ⟨hgiven, by omega, hi⟩)
  · intro hempty m hm
    obtain ⟨hgiven, _, hi⟩ := (mem_givenModifiers b m.1 m.2).mp hm
    exact hgiven (hempty _ (List.mem_of_getElem? hi))

/-- Types and values of the modifiers as they are read. -/
def readModifiers (lowerCase : LowerCase) (b : Boolean) : List (PyStr × PyStr) :=
  (givenModifiers b).map fun m ↦
    (booleanModifierTypes[m.2]?.getD [], lowerCase.lower (lineEnds m.1))

theorem modifiersByType_eq_ok_iff (depth : ℕ) (b : Boolean) (mods : AList fun _ : PyStr ↦ PyStr) :
    modifiersByType lowerCase (indented depth ((givenModifiers b).map readModifier)) = .ok mods ↔
      (∀ m ∈ givenModifiers b, booleanModifierTypes[m.2]?.getD [] ≠ [] ∧ lineEnds m.1 ≠ []) ∧
        mods = (readModifiers lowerCase b).foldl (fun dict entry ↦ dict.insert entry.1 entry.2) ∅ := by
  rw [modifiersByType, forElements_indented, readModifiers, List.foldl_map]
  refine forElements_map_eq_ok_iff (fun m _ dict dict' ↦ ?_) ∅ mods
  simp only [reduceIte, bind_eq_ok_iff, modifier_eq_ok_iff]
  constructor
  · rintro ⟨entry, ⟨hgiven, hentry⟩, hinsert⟩
    rw [hentry] at hinsert
    exact ⟨hgiven, (Except.ok.inj hinsert).symm⟩
  · rintro ⟨hgiven, hinsert⟩
    exact ⟨_, ⟨hgiven, rfl⟩, congrArg Except.ok hinsert.symm⟩

/-- The modifier at a place, in lower case. -/
def modifierAt (lowerCase : LowerCase) (b : Boolean) (i : ℕ) : PyStr :=
  lowerCase.lower (lineEnds (b.modifiers[i]?.getD []))

variable {b : Boolean}

theorem lookup_readModifiers (htyped : Typed b) {i : ℕ} (hi : i < 4) :
    (((readModifiers lowerCase b).foldl (fun dict entry ↦ dict.insert entry.1 entry.2)
      (∅ : AList fun _ : PyStr ↦ PyStr)).lookup (booleanModifierTypes[i + 1]?.getD [])).getD [] =
    modifierAt lowerCase b i := by
  have hinjective : ∀ place < 5, ∀ place' < 5, booleanModifierTypes[place]?.getD [] =
      booleanModifierTypes[place']?.getD [] → place = place' := by decide
  have hmem : ∀ value, (booleanModifierTypes[i + 1]?.getD [], value) ∈ readModifiers lowerCase b →
      ∃ m, m ≠ [] ∧ b.modifiers[i]? = some m ∧ lowerCase.lower (lineEnds m) = value := by
    intro value hvalue
    obtain ⟨⟨m, place⟩, hm, hentry⟩ := List.mem_map.mp hvalue
    obtain ⟨htype, hlower⟩ := Prod.mk.inj hentry
    have hplace : place = i + 1 := hinjective place (htyped _ hm) (i + 1) (by omega) htype
    obtain ⟨hgiven, _, hget⟩ := (mem_givenModifiers b m place).mp hm
    rw [hplace, Nat.add_sub_cancel] at hget
    exact ⟨m, hgiven, hget, hlower⟩
  unfold modifierAt
  by_cases hgiven : b.modifiers[i]?.getD [] = []
  · rw [hgiven]
    cases hlookup : ((readModifiers lowerCase b).foldl (fun dict entry ↦ dict.insert entry.1 entry.2)
        (∅ : AList fun _ : PyStr ↦ PyStr)).lookup (booleanModifierTypes[i + 1]?.getD []) with
    | none => rfl
    | some value =>
      obtain ⟨m, hne, hget, _⟩ := hmem value (mem_of_lookup_foldl_insert hlookup)
      rw [hget] at hgiven
      exact absurd hgiven hne
  · obtain ⟨m, hget⟩ : ∃ m, b.modifiers[i]? = some m := by
      cases hget : b.modifiers[i]? with
      | none => exact absurd (by rw [hget]; rfl) hgiven
      | some m => exact ⟨m, rfl⟩
    rw [hget] at hgiven ⊢
    have hentry : (booleanModifierTypes[i + 1]?.getD [], lowerCase.lower (lineEnds m)) ∈
        readModifiers lowerCase b :=
      List.mem_map.mpr ⟨(m, i + 1), (mem_givenModifiers b m _).mpr ⟨hgiven, by omega, hget⟩, rfl⟩
    obtain ⟨value, hvalue, hlookup⟩ := lookup_foldl_insert_of_mem hentry
    obtain ⟨m', _, hget', hlower⟩ := hmem value hvalue
    rw [hget, Option.some.injEq] at hget'
    rw [hlookup, Option.getD_some, Option.getD_some, hget', hlower]

theorem booleanModifiers_eq_ok_iff (depth : ℕ) (htyped : Typed b) (modlist : List PyStr) :
    booleanModifiers lowerCase (indented depth ((givenModifiers b).map readModifier)) = .ok modlist ↔
      modlist = [modifierAt lowerCase b 0, modifierAt lowerCase b 1, modifierAt lowerCase b 2,
        modifierAt lowerCase b 3] := by
  have hgood : ∀ m ∈ givenModifiers b,
      booleanModifierTypes[m.2]?.getD [] ≠ [] ∧ lineEnds m.1 ≠ [] := by
    intro m hm
    obtain ⟨hgiven, hplace, _⟩ := (mem_givenModifiers b m.1 m.2).mp hm
    have htypes : ∀ i < 5, 1 ≤ i → booleanModifierTypes[i]?.getD [] ≠ [] := by decide
    exact ⟨htypes m.2 (htyped m hm) hplace, (lineEnds_eq_nil_iff m.1).not.mpr hgiven⟩
  have hread : ((booleanModifierTypes.drop 1).map fun t ↦
      (((readModifiers lowerCase b).foldl (fun dict entry ↦ dict.insert entry.1 entry.2)
        (∅ : AList fun _ : PyStr ↦ PyStr)).lookup t).getD []) =
      [modifierAt lowerCase b 0, modifierAt lowerCase b 1, modifierAt lowerCase b 2,
        modifierAt lowerCase b 3] := by
    rw [← lookup_readModifiers htyped (by decide : 0 < 4),
      ← lookup_readModifiers htyped (by decide : 1 < 4),
      ← lookup_readModifiers htyped (by decide : 2 < 4),
      ← lookup_readModifiers htyped (by decide : 3 < 4)]
    rfl
  rw [← hread, booleanModifiers, bind_eq_ok_iff]
  constructor
  · rintro ⟨mods, hmods, hmodlist⟩
    rw [((modifiersByType_eq_ok_iff depth b mods).mp hmods).2] at hmodlist
    exact (Except.ok.inj hmodlist).symm
  · intro hmodlist
    exact ⟨_, (modifiersByType_eq_ok_iff depth b _).mpr ⟨hgood, rfl⟩, congrArg Except.ok hmodlist.symm⟩

/-- Four modifiers are read; they are those of the boolean if it has four and no end of line in them. -/
theorem modifiersAt_eq_iff (b : Boolean) :
    [modifierAt lowerCase b 0, modifierAt lowerCase b 1, modifierAt lowerCase b 2,
        modifierAt lowerCase b 3] = b.modifiers.map lowerCase.lower ↔
      b.modifiers.length = 4 ∧ ∀ m ∈ b.modifiers, '\r' ∉ m := by
  constructor
  · intro hsame
    have hlength := congrArg List.length hsame
    rw [List.length_map] at hlength
    obtain ⟨m₀, m₁, m₂, m₃, hmodifiers⟩ : ∃ m₀ m₁ m₂ m₃, b.modifiers = [m₀, m₁, m₂, m₃] :=
      List.length_eq_four.mp hlength.symm
    simp only [modifierAt, hmodifiers] at hsame ⊢
    simpa [lower_lineEnds_eq_iff] using hsame
  · rintro ⟨hlength, hcr⟩
    obtain ⟨m₀, m₁, m₂, m₃, hmodifiers⟩ : ∃ m₀ m₁ m₂ m₃, b.modifiers = [m₀, m₁, m₂, m₃] :=
      List.length_eq_four.mp hlength
    simp only [modifierAt, hmodifiers] at hcr ⊢
    simpa [lower_lineEnds_eq_iff] using hcr

theorem modifiers_readable_iff {b : Boolean} (hgiven : givenModifiers b ≠ []) :
    [modifierAt lowerCase b 0, modifierAt lowerCase b 1, modifierAt lowerCase b 2,
        modifierAt lowerCase b 3] = b.modifiers.map lowerCase.lower ↔
      (b.modifiers = [] ∨ b.modifiers.length = 4 ∧ (∃ m ∈ b.modifiers, m ≠ []) ∧
        ∀ m ∈ b.modifiers, m ≠ [] → Kept m) := by
  have hsome : ∃ m ∈ b.modifiers, m ≠ [] := by
    by_contra hnone
    push Not at hnone
    exact hgiven ((givenModifiers_eq_nil_iff b).mpr hnone)
  rw [modifiersAt_eq_iff]
  constructor
  · rintro ⟨hlength, hcr⟩
    exact .inr ⟨hlength, hsome, fun m hm hne ↦ ⟨hne, hcr m hm⟩⟩
  · intro hreadable
    rcases hreadable with hnil | ⟨hlength, _, hkept⟩
    · obtain ⟨m, hm, _⟩ := hsome
      rw [hnil] at hm
      cases hm
    · refine ⟨hlength, fun m hm hcr ↦ ?_⟩
      exact (hkept m hm (List.ne_nil_of_mem hcr)).2 hcr

theorem boolean_eq_ok_iff (depth : ℕ) {b : Boolean} (htyped : Typed b) :
    boolean lowerCase (indented depth (leaf "value" (lineEnds b.value) ::
      if givenModifiers b = [] then []
      else [block (depth + 1) "modifiers" ((givenModifiers b).map readModifier)])) =
        .ok ⟨lowerCase.lower b.value, b.modifiers.map lowerCase.lower⟩ ↔
    ReadableBoolean Kept b := by
  rw [boolean, forElements_indented, leaf, forElements, ReadableBoolean, Kept]
  simp only [reduceIte, bind_eq_ok_iff, firstChildData_texts, ne_eq, lineEnds_eq_nil_iff]
  rw [← @lower_lineEnds_eq_iff lowerCase]
  by_cases hgiven : givenModifiers b = []
  · have hempty := (givenModifiers_eq_nil_iff b).mp hgiven
    rw [if_pos hgiven]
    constructor
    · rintro ⟨first, ⟨data, ⟨hvalue, hdata⟩, hfirst⟩, hrest⟩
      subst hdata
      obtain ⟨hlower, hmodifiers⟩ :=
        Boolean.mk.inj ((Except.ok.inj hfirst).trans (Except.ok.inj hrest))
      exact ⟨⟨hvalue, hlower⟩, .inl (List.map_eq_nil_iff.mp hmodifiers.symm)⟩
    · rintro ⟨⟨hvalue, hlower⟩, hmodifiers⟩
      rcases hmodifiers with hmodifiers | ⟨_, ⟨m, hm, hne⟩, _⟩
      · refine ⟨_, ⟨_, ⟨hvalue, rfl⟩, rfl⟩, ?_⟩
        rw [hlower, hmodifiers]
        rfl
      · exact absurd (hempty m hm) hne
  · rw [if_neg hgiven, ← @modifiers_readable_iff lowerCase _ hgiven]
    simp only [block, forElements, reduceIte, String.reduceEq, bind_eq_ok_iff,
      booleanModifiers_eq_ok_iff _ htyped]
    constructor
    · rintro ⟨first, ⟨data, ⟨hvalue, hdata⟩, hfirst⟩, second, ⟨_, hmodlist, hsecond⟩, hrest⟩
      subst hdata
      subst hmodlist
      cases hfirst
      cases hsecond
      obtain ⟨hlower, hmodifiers⟩ := Boolean.mk.inj (Except.ok.inj hrest)
      exact ⟨⟨hvalue, hlower⟩, hmodifiers⟩
    · rintro ⟨⟨hvalue, hlower⟩, hmodifiers⟩
      refine ⟨_, ⟨_, ⟨hvalue, rfl⟩, rfl⟩, _, ⟨_, rfl, rfl⟩, ?_⟩
      rw [hlower, hmodifiers]

theorem typed_of_readableBoolean {P : PyStr → Prop} (h : ReadableBoolean P b) : Typed b := by
  intro m hm
  obtain ⟨hgiven, hplace, hget⟩ := (mem_givenModifiers b m.1 m.2).mp hm
  have hlength := (List.getElem?_eq_some_iff.mp hget).1
  rcases h.2 with hnil | ⟨hfour, _⟩
  · rw [hnil, List.length_nil] at hlength
    omega
  · omega

theorem document_searchClause_lineEnds (sc : SearchClause) (depth : ℕ) :
    (document (.searchClause sc) depth).lineEnds = block depth "searchClause"
      ((prefixesDocument depth sc.prefixes).map Node.lineEnds ++
        [leaf "index" (lineEnds sc.index), (relationDocument (depth + 1) sc.relation).lineEnds,
          leaf "term" (lineEnds sc.term)]) := by
  simp [document]

theorem readPrefixes_of_entries_eq_nil {dict : Prefixes} (hempty : dict.entries = []) :
    readPrefixes lowerCase dict = ∅ := by
  rw [readPrefixes, readEntries, hempty]
  rfl

theorem clause_prefixes (depth : ℕ) (rest : List Node) (sc : ClauseFields) :
    forElements (clauseField lowerCase) ⟨∅, [], none, []⟩
        ((prefixesDocument depth dict).map Node.lineEnds ++ rest) = .ok sc ↔
      (∀ p ∈ dict.entries, p.1 ≠ [] ∧ p.2 ≠ []) ∧
        forElements (clauseField lowerCase) ⟨readPrefixes lowerCase dict, [], none, []⟩ rest =
          .ok sc := by
  rw [prefixesDocument_lineEnds]
  split_ifs with hempty
  · rw [readPrefixes_of_entries_eq_nil hempty, hempty]
    simp
  · rw [List.singleton_append, block, forElements, bind_eq_ok_iff]
    simp only [clauseField, String.reduceEq, reduceIte, bind_eq_ok_iff, prefixes_eq_ok_iff]
    constructor
    · rintro ⟨first, ⟨_, ⟨hgiven, hread⟩, hfirst⟩, hrest⟩
      subst hread
      cases hfirst
      exact ⟨hgiven, hrest⟩
    · rintro ⟨hgiven, hrest⟩
      exact ⟨_, ⟨_, ⟨hgiven, rfl⟩, rfl⟩, hrest⟩

theorem searchClause_iff (sc : SearchClause) (depth : ℕ) :
    (∃ object, searchClause lowerCase (indented depth
        ((prefixesDocument depth sc.prefixes).map Node.lineEnds ++
          [leaf "index" (lineEnds sc.index), (relationDocument (depth + 1) sc.relation).lineEnds,
            leaf "term" (lineEnds sc.term)])) = .ok object ∧
      SameQuery lowerCase (.searchClause sc) object) ↔
    ReadableQuery lowerCase Kept (.searchClause sc) := by
  rw [ReadableQuery, ← samePrefixes_iff, Kept, Kept, Kept, ← @lower_lineEnds_eq_iff lowerCase,
    ← @lower_lineEnds_eq_iff lowerCase sc.relation.value, ← lineEnds_eq_self_iff sc.term]
  simp only [searchClause, forElements_indented, bind_eq_ok_iff, clause_prefixes,
    relationDocument_lineEnds, forElements_leaf, forElements_block, forElements, clauseField,
    String.reduceEq, reduceIte, firstChildData_texts, relation_eq_ok_iff, ne_eq, lineEnds_eq_nil_iff]
  constructor
  · rintro ⟨object, ⟨fields, ⟨hgiven, first, ⟨_, ⟨hindex, hindexData⟩, hfirst⟩, second,
      ⟨rel, ⟨hvalue, hmodifiers, hrel⟩, hsecond⟩, third, ⟨_, ⟨hterm, htermData⟩, hthird⟩, hfields⟩,
      hobject⟩, hsame⟩
    subst hindexData
    subst hrel
    subst htermData
    cases hfirst
    cases hsecond
    cases hthird
    cases hfields
    cases hobject
    obtain ⟨hprefixes, hlower, hrelation, hkept⟩ := hsame
    have hrelationValue := (Relation.mk.inj (Option.some.inj hrelation)).1
    exact ⟨⟨hgiven, hprefixes⟩, ⟨hindex, hlower⟩, ⟨hvalue, hrelationValue⟩, hmodifiers, hterm, hkept⟩
  · rintro ⟨⟨hgiven, hprefixes⟩, ⟨hindex, hlower⟩, ⟨hvalue, hrelationValue⟩, hmodifiers, hterm, hkept⟩
    refine ⟨_, ⟨_, ⟨hgiven, _, ⟨_, ⟨hindex, rfl⟩, rfl⟩, _, ⟨_, ⟨hvalue, hmodifiers, rfl⟩, rfl⟩, _,
      ⟨_, ⟨hterm, rfl⟩, rfl⟩, rfl⟩, rfl⟩, hprefixes, hlower, ?_, hkept⟩
    rw [hrelationValue, hmodifiers]
    rfl

theorem tripleFields_indented (trip : TripleFields) (depth : ℕ) (nodes : List Node) :
    tripleFields lowerCase trip (indented depth nodes) = tripleFields lowerCase trip nodes := by
  induction nodes generalizing trip with
  | nil => simp [indented, indent, tripleFields]
  | cons node nodes hnodes =>
    have hcons : indented depth (node :: nodes) = indent (depth + 1) :: node :: indented depth nodes :=
      rfl
    rw [hcons, indent, tripleFields]
    cases node with
    | text data => rw [tripleFields, tripleFields, hnodes]
    | element localName childNodes => simp only [tripleFields, hnodes]

theorem operand_indented (depth : ℕ) (localName : String) (childNodes : List Node) :
    operand lowerCase (indented depth [.element localName childNodes]) =
      operand lowerCase [.element localName childNodes] := by
  have hcons : indented depth [.element localName childNodes] =
      indent (depth + 1) :: .element localName childNodes :: [indent depth] := rfl
  rw [hcons, indent, operand, operand, operand]

section Fields

variable (trip : TripleFields) (depth : ℕ) (nodes rest : List Node)

theorem tripleFields_boolean :
    tripleFields lowerCase trip (block depth "boolean" nodes :: rest) =
      boolean lowerCase (indented depth nodes) >>= fun bool ↦
        tripleFields lowerCase { trip with boolean := some bool } rest := by
  rw [block, tripleFields, if_pos rfl]

theorem tripleFields_leftOperand :
    tripleFields lowerCase trip (block depth "leftOperand" nodes :: rest) =
      operand lowerCase (indented depth nodes) >>= fun left ↦
        tripleFields lowerCase { trip with leftOperand := some left } rest := by
  rw [block, tripleFields, if_neg (by decide), if_neg (by decide), if_pos rfl]

theorem tripleFields_rightOperand :
    tripleFields lowerCase trip (block depth "rightOperand" nodes :: rest) =
      operand lowerCase (indented depth nodes) >>= fun right ↦
        tripleFields lowerCase { trip with rightOperand := some right } rest := by
  rw [block, tripleFields, if_neg (by decide), if_neg (by decide), if_neg (by decide)]

end Fields

theorem triple_prefixes (depth : ℕ) (rest : List Node) (trip : TripleFields) :
    tripleFields lowerCase ⟨∅, none, none, none⟩
        ((prefixesDocument depth dict).map Node.lineEnds ++ rest) = .ok trip ↔
      (∀ p ∈ dict.entries, p.1 ≠ [] ∧ p.2 ≠ []) ∧
        tripleFields lowerCase ⟨readPrefixes lowerCase dict, none, none, none⟩ rest = .ok trip := by
  rw [prefixesDocument_lineEnds]
  split_ifs with hempty
  · rw [readPrefixes_of_entries_eq_nil hempty, hempty]
    simp
  · rw [List.singleton_append, block, tripleFields]
    simp only [String.reduceEq, reduceIte, bind_eq_ok_iff, prefixes_eq_ok_iff]
    constructor
    · rintro ⟨read, ⟨hgiven, hread⟩, hrest⟩
      subst hread
      exact ⟨hgiven, hrest⟩
    · rintro ⟨hgiven, hrest⟩
      exact ⟨_, ⟨hgiven, rfl⟩, hrest⟩

theorem document_triple_lineEnds (leftOperand rightOperand : CqlQuery) (b : Boolean) (depth : ℕ) :
    (document (.triple dict leftOperand b rightOperand) depth).lineEnds = block depth "triple"
      ((prefixesDocument depth dict).map Node.lineEnds ++
        [(booleanDocument (depth + 1) b).lineEnds,
          block (depth + 1) "leftOperand" [(document leftOperand (depth + 2)).lineEnds],
          block (depth + 1) "rightOperand" [(document rightOperand (depth + 2)).lineEnds]]) := by
  simp [document]

theorem document_element (query : CqlQuery) (depth : ℕ) :
    ∃ localName childNodes, document query depth = .element localName childNodes := by
  cases query with
  | searchClause sc => exact ⟨_, _, rfl⟩
  | triple dict left b right => exact ⟨_, _, rfl⟩

theorem operand_document (query : CqlQuery) (depth depth' : ℕ) :
    operand lowerCase (indented depth' [(document query depth).lineEnds]) =
      operand lowerCase [(document query depth).lineEnds] := by
  obtain ⟨localName, childNodes, helement⟩ := document_element query depth
  rw [helement, Node.lineEnds, operand_indented]

theorem operand_iff {query : CqlQuery} (htyped : TypedQuery query) (depth : ℕ) :
    (∃ object, operand lowerCase [(document query depth).lineEnds] = .ok object ∧
      SameQuery lowerCase query object) ↔ ReadableQuery lowerCase Kept query := by
  induction query generalizing depth with
  | searchClause sc =>
    rw [document_searchClause_lineEnds, block, operand, if_pos rfl]
    exact searchClause_iff sc depth
  | triple dict leftOperand b rightOperand hleft hright =>
    have hleft := hleft htyped.1 (depth + 2)
    have hright := hright htyped.2.2 (depth + 2)
    have hboolean := @boolean_eq_ok_iff lowerCase (depth + 1) _ htyped.2.1
    rw [ReadableQuery, ← samePrefixes_iff, ← hleft, ← hright, ← hboolean, document_triple_lineEnds,
      booleanDocument_lineEnds, block, operand, if_neg (by decide)]
    simp only [tripleFields_indented, bind_eq_ok_iff, triple_prefixes]
    simp only [tripleFields_boolean, tripleFields_leftOperand, tripleFields_rightOperand,
      tripleFields, bind_eq_ok_iff, operand_document]
    constructor
    · rintro ⟨object, ⟨fields, ⟨hgiven, bool, hbool, left, hleft, right, hright, hfields⟩, hobject⟩,
        hsame⟩
      cases hfields
      cases hobject
      obtain ⟨hprefixes, ⟨_, hleftSome, hleftSame⟩, hbooleanSome, _, hrightSome, hrightSame⟩ := hsame
      cases hleftSome
      cases hrightSome
      cases hbooleanSome
      exact ⟨⟨hgiven, hprefixes⟩, hbool, ⟨left, hleft, hleftSame⟩, right, hright, hrightSame⟩
    · rintro ⟨⟨hgiven, hprefixes⟩, hbool, ⟨left, hleft, hleftSame⟩, right, hright, hrightSame⟩
      exact ⟨_, ⟨_, ⟨hgiven, _, hbool, left, hleft, right, hright, rfl⟩, rfl⟩, hprefixes,
        ⟨left, rfl, hleftSame⟩, rfl, right, rfl, hrightSame⟩

end Cheshire.Srw
